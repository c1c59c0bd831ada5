import MyOS.Lib.Interrupt
import MyOS.Proofs.Asserts
import MyOS.Proofs.IpcCode

/-!
# Interrupts between the statements of the message layer

`inform_int` may come between two statements of a `SEND` to its task or of a `RECEIVE` by it. An
interrupt that stays pending is noticed by no statement but the ones that look for it, and one that
wakes a task up by none that does not write to the task. What is left are the places where the
statements rely on the task's waiting, or on its not having been told yet.
-/

namespace MyOS

open Memory Pointer Relation IpcCode

variable {k k' k₁ : Kernel} {s t p : Slot} {m a : Addr} {src : Int} {h : Proc → Proc}
  {g : Kernel → Kernel}

/-! ## The interrupt as a step -/

theorem Kernel.set_comm (k : Kernel) {p q : Slot} (hpq : p ≠ q) (f f' : Proc → Proc) :
    (k.set p f).set q f' = (k.set q f').set p f := by
  simp only [Kernel.set, Function.update_of_ne hpq, Function.update_of_ne hpq.symm]
  rw [Function.update_comm hpq]

theorem Kernel.set_congr {f f' : Proc → Proc} (hf : f (k.procTable p) = f' (k.procTable p)) :
    k.set p f = k.set p f' := by
  rw [Kernel.set, Kernel.set, hf]

theorem Kernel.set_self {f : Proc → Proc} (hf : f (k.procTable p) = k.procTable p) :
    k.set p f = k := by
  rw [Kernel.set, hf, Function.update_eq_self]

def pended (t : Slot) (k : Kernel) : Kernel := pend (k.note (.informed t)) t

def awakened (t : Slot) (a : Addr) (k : Kernel) : Kernel := wake (k.note (.informed t)) t a

/-- `g` does `h` to process `t` and nothing else to the table, and does not look at the table. -/
structure Acts (t : Slot) (h : Proc → Proc) (g : Kernel → Kernel) : Prop where
  proc : ∀ k q, (g k).procTable q = if q = t then h (k.procTable t) else k.procTable q
  set : ∀ k p f, (p = t → ∀ x, f (h x) = h (f x)) → g (k.set p f) = (g k).set p f

def pendedProc (x : Proc) : Proc := { x with hasIntMsg := true }

def awakenedProc (x : Proc) : Proc :=
  { x with pMsg := 0, hasIntMsg := false, pFlags := x.pFlags &&& ~~~receiving, pRecvfrom := noTask }

theorem set_acts (k : Kernel) (t p : Slot) (h f : Proc → Proc)
    (hf : p = t → ∀ x, f (h x) = h (f x)) : (k.set p f).set t h = (k.set t h).set p f := by
  rcases eq_or_ne p t with rfl | hpt
  · rw [Kernel.set_set, Kernel.set_set]
    exact congrArg _ (funext fun x => (hf rfl x).symm)
  · exact k.set_comm hpt f h

theorem pended_acts (t : Slot) : Acts t pendedProc (pended t) where
  proc k q := by
    rw [pended, pend, Kernel.set_procTable]
    rfl
  set k p f hf := set_acts (k.note (.informed t)) t p pendedProc f hf

theorem awakened_acts (t : Slot) (a : Addr) : Acts t awakenedProc (awakened t a) where
  proc k q := by
    rw [awakened, wake, Kernel.set_procTable]
    rfl
  set k p f hf := by
    let k' := k.note (.informed t)
    exact set_acts { k' with
      mem := hardIntMem k' a
      log := .hardInt t (Message.load (hardIntMem k' a) a) :: k'.log } t p awakenedProc f hf

theorem informInt_pended (hk : ¬ AwaitsInt k t) : informInt k t = .ok (pended t k) := by
  unfold AwaitsInt at hk
  dsimp only [informInt]
  rw [Kernel.note_procTable, if_neg hk]
  rfl

theorem informIntAt_pended (hk : ¬ AwaitsInt k t) : informIntAt t k = .ok (pended t k) := by
  rw [informIntAt, if_neg fun he => hk ⟨he.1, he.2.1⟩]
  exact informInt_pended hk

theorem informIntAt_wild (hk : AwaitsInt k t) (hm : (k.procTable t).pMsg = 0) :
    informIntAt t k = .error .wild := if_pos ⟨hk.1, hk.2, hm⟩

/-- A task that waits for an interrupt, as its waiting leaves it. -/
structure WaitsInt (x : Proc) : Prop where
  pFlags : x.pFlags = receiving
  pRecvfrom : x.pRecvfrom = interrupt ∨ x.pRecvfrom = any
  pMsg : x.pMsg ≠ 0
  pSendto : x.pSendto = noTask

theorem WaitsInt.awaitsInt (hk : WaitsInt (k.procTable t)) : AwaitsInt k t := by
  refine ⟨?_, hk.pRecvfrom⟩
  rw [hk.pFlags]
  decide

theorem informInt_awakened (hk : WaitsInt (k.procTable t)) :
    informInt k t = .ok (awakened t (k.procTable t).pMsg k) := by
  have ha := hk.awaitsInt
  unfold AwaitsInt at ha
  have hf : (k.procTable t).pFlags &&& ~~~receiving = 0 := by
    rw [hk.pFlags]
    decide
  dsimp only [informInt]
  rw [Kernel.note_procTable, if_pos ha]
  simp only [unblock, Kernel.set_procTable, if_pos, Kernel.note_procTable]
  rw [assert_of hf, ok_bind, ok_bind, assert_of trivial, ok_bind, ok_bind, assert_of hk.pSendto]
  rfl

theorem informIntAt_awakened (hk : WaitsInt (k.procTable t)) :
    informIntAt t k = .ok (awakened t (k.procTable t).pMsg k) := by
  rw [informIntAt, if_neg fun he => hk.pMsg he.2.2]
  exact informInt_awakened hk

/-! ## Statements that take no note of it -/

section Ignores

variable {I : Kernel → Prop} {pc : Pc} {next : IpcCode}

theorem ignores_done : (Code.done : IpcCode).Ignores I g := trivial

theorem ignores_check {c : Kernel → Prop} [DecidablePred c] (hn : next.Ignores I g)
    (hc : ∀ k, I k → (c (g k) ↔ c k)) : (check pc c next).Ignores I g := by
  refine ⟨fun k hk => ⟨?_, fun k' hk' => ?_⟩, hn⟩
  · beta_reduce
    by_cases hck : c k
    · rw [assert_of hck, assert_of ((hc k hk).2 hck)]
      rfl
    · have hg : ¬ c (g k) := fun h => hck ((hc k hk).1 h)
      rw [assert, if_neg hg, assert, if_neg hck]
      rfl
  · obtain ⟨-, hk'⟩ := assert_bind_eq_ok.1 hk'
    obtain rfl := Except.ok.inj hk'
    exact hk

theorem ignores_set {f : Kernel → Proc → Proc} (hg : Acts t h g) (hn : next.Ignores I g)
    (hv : ∀ k, I k → f (g k) = f k) (hf : p = t → ∀ k x, f k (h x) = h (f k x))
    (hI : ∀ k, I k → I (k.set p (f k))) :
    Code.Ignores I g (.stmt pc (fun k => .ok (k.set p (f k))) next) := by
  refine ⟨fun k hk => ⟨?_, fun k' hk' => ?_⟩, hn⟩
  · beta_reduce
    rw [hv k hk, ← hg.set k p (f k) fun hp x => hf hp k x]
    rfl
  · obtain rfl := Except.ok.inj hk'
    exact hI k hk

theorem ignores_write {f : Proc → Proc} (hg : Acts t h g) (hn : next.Ignores I g)
    (hf : p = t → ∀ x, f (h x) = h (f x)) (hI : ∀ k, I k → I (k.set p f)) :
    (write pc p f next).Ignores I g :=
  ignores_set hg hn (fun _ _ => rfl) (fun hp _ => hf hp) hI

theorem ignores_read {α : Type} {v : Kernel → α} {next : α → IpcCode}
    (hn : ∀ a, (next a).Ignores I g) (hv : ∀ k, I k → v (g k) = v k) :
    (read pc v next).Ignores I g :=
  ⟨fun k hk => congrArg Except.ok (hv k hk), hn⟩

theorem ignores_follow {v : Kernel → Option Slot} {next : Slot → IpcCode}
    (hn : ∀ a, (next a).Ignores I g) (hv : ∀ k, I k → v (g k) = v k) :
    (follow pc v next).Ignores I g := by
  refine ⟨fun k hk => ?_, hn⟩
  beta_reduce
  rw [hv k hk]

theorem ignores_stop {e : Fault} : (stop pc e).Ignores I g :=
  ⟨fun _ _ => ⟨rfl, fun _ he => by cases he⟩, trivial⟩

end Ignores

/-- `h` leaves the links of the queues alone. -/
structure KeepsLinks (h : Proc → Proc) : Prop where
  qSending : ∀ x, (h x).qSending = x.qSending
  nextSending : ∀ x, (h x).nextSending = x.nextSending
  setQueue : ∀ x q, h { x with qSending := q } = { h x with qSending := q }
  setNext : ∀ x q, h { x with nextSending := q } = { h x with nextSending := q }

theorem pendedProc_keepsLinks : KeepsLinks pendedProc :=
  ⟨fun _ => rfl, fun _ => rfl, fun _ _ => rfl, fun _ _ => rfl⟩

theorem awakenedProc_keepsLinks : KeepsLinks awakenedProc :=
  ⟨fun _ => rfl, fun _ => rfl, fun _ _ => rfl, fun _ _ => rfl⟩

theorem Acts.other (hg : Acts t h g) (k : Kernel) {q : Slot} (hq : q ≠ t) :
    (g k).procTable q = k.procTable q := by
  rw [hg.proc, if_neg hq]

theorem Acts.field {α : Type} (hg : Acts t h g) (v : Proc → α) (hv : ∀ x, v (h x) = v x)
    (k : Kernel)
    (q : Slot) : v ((g k).procTable q) = v (k.procTable q) := by
  rw [hg.proc]
  split_ifs with hq
  · rw [hv, hq]
  · rfl

/-- What is known of the task, and does not depend on the links of the queues. -/
structure Watched (P : Proc → Prop) : Prop where
  setQueue : ∀ x q, P x → P { x with qSending := q }
  setNext : ∀ x q, P x → P { x with nextSending := q }

section Pieces

variable {P : Proc → Prop}

theorem watched_set {f : Proc → Proc} (hP : p = t → ∀ x, P x → P (f x)) :
    P (k.procTable t) → P ((k.set p f).procTable t) := by
  intro hk
  rw [Kernel.set_procTable]
  split_ifs with he
  · rw [← he]
    exact hP he.symm _ (he ▸ hk)
  · exact hk

theorem lastCode_ignores (hg : Acts t h g) (hh : KeepsLinks h) {I : Kernel → Prop}
    {next : Slot → IpcCode} (hn : ∀ q, (next q).Ignores I g) :
    ∀ {n : ℕ} {q : Slot}, (lastCode n q next).Ignores I g
  | 0, _ => ignores_stop
  | n + 1, q => by
    refine ignores_read (fun more => ?_) fun k _ => by rw [hg.field _ hh.nextSending]
    split_ifs
    · refine ignores_follow (fun q => lastCode_ignores hg hh hn) fun k _ => ?_
      exact hg.field _ hh.nextSending k q
    · exact hn q

theorem queueUpCode_ignores (hg : Acts t h g) (hh : KeepsLinks h) (hP : Watched P) (hst : s ≠ t) :
    (queueUpCode s t m).Ignores (fun k => P (k.procTable t)) g := by
  have hs (k : Kernel) : (g k).procTable s = k.procTable s := hg.other k hst
  have hwrite {pc : Pc} {f : Proc → Proc} {next : IpcCode}
      (hn : next.Ignores (fun k => P (k.procTable t)) g) :
      (write pc s f next).Ignores (fun k => P (k.procTable t)) g :=
    ignores_write hg hn (fun he => absurd he hst) fun k => watched_set fun he => absurd he hst
  have hend : Code.Ignores (fun k => P (k.procTable t)) g (
      check .queueUp (fun k => (k.procTable s).pFlags ≠ 0) <|
      check .queueUp (fun k => (k.procTable s).pFlags = sending) <|
      check .queueUp (fun k => (k.procTable s).pMsg ≠ 0) <|
      check .queueUp (fun k => (k.procTable s).pRecvfrom = noTask) <|
      check .queueUp (fun k => (k.procTable s).pSendto = proc2pid t) .done) := by
    repeat refine ignores_check ?_ fun k _ => by rw [hs]
    exact ignores_done
  refine hwrite <| ignores_check (hwrite <| hwrite ?_) fun k _ => by rw [hs]
  refine ignores_read (fun queued => ?_) fun k _ => by rw [hg.field _ hh.qSending]
  split_ifs
  · refine ignores_follow (fun q => ?_) fun k _ => hg.field _ hh.qSending k t
    refine lastCode_ignores hg hh fun q => ?_
    refine ignores_write hg (hwrite hend) (fun _ x => (hh.setNext x _).symm) fun k => ?_
    exact watched_set fun _ x => hP.setNext x _
  · refine ignores_write hg (hwrite hend) (fun _ x => (hh.setQueue x _).symm) fun k => ?_
    exact watched_set fun _ x => hP.setQueue x _

end Pieces

/-- A process that waits for no interrupt. -/
def Busy (x : Proc) : Prop :=
  ¬ (x.pFlags &&& receiving ≠ 0 ∧ (x.pRecvfrom = interrupt ∨ x.pRecvfrom = any))

theorem busy_watched : Watched Busy := ⟨fun _ _ => id, fun _ _ => id⟩

theorem busy_clearReceiving (x : Proc) :
    Busy { x with pFlags := x.pFlags &&& ~~~receiving } := by
  intro hr
  refine hr.1 ?_
  dsimp only
  rw [BitVec.and_assoc, show ~~~receiving &&& receiving = 0 by decide]
  exact BitVec.and_zero

theorem va2la_pended (t p : Slot) (k : Kernel) (va : Addr) :
    va2la (pended t k) p va = va2la k p va := by
  have hl : ((pended t k).procTable p).ldts = (k.procTable p).ldts :=
    (pended_acts t).field (·.ldts) (fun _ => rfl) k p
  simp only [va2la, hl]

theorem copyMsg_pended (t d s : Slot) (a b : Addr) (k : Kernel) :
    copyMsg d a s b (pended t k) = (copyMsg d a s b k).map (pended t) := by
  unfold copyMsg
  split_ifs
  · rfl
  · simp only [va2la_pended]
    cases va2la k d a with
    | error e => rfl
    | ok dst =>
      cases va2la k s b with
      | error e => rfl
      | ok src => simp only [pended, pend, Kernel.set, Kernel.note, ok_bind, Except.map]

theorem copyMsg_procTable {d : Slot} {b : Addr} (hc : copyMsg d a s b k = .ok k') :
    k'.procTable = k.procTable := by
  unfold copyMsg at hc
  split_ifs at hc
  obtain ⟨dst, -, hc⟩ := bind_eq_ok.1 hc
  obtain ⟨src, -, hc⟩ := bind_eq_ok.1 hc
  obtain rfl := Except.ok.inj hc
  rfl

theorem noTask_ne_interrupt : noTask ≠ interrupt := by decide

theorem noTask_ne_any : noTask ≠ any := by decide

section Pended

variable {pc : Pc} {next : IpcCode}

theorem ignores_copy {d : Slot} {v w : Kernel → Addr}
    (hn : next.Ignores (fun k => Busy (k.procTable t)) (pended t))
    (hv : ∀ k, v (pended t k) = v k) (hw : ∀ k, w (pended t k) = w k) :
    Code.Ignores (fun k => Busy (k.procTable t)) (pended t)
      (.stmt pc (fun k => copyMsg d (v k) s (w k) k) next) := by
  refine ⟨fun k hk => ⟨?_, fun k' hk' => ?_⟩, hn⟩
  · beta_reduce
    rw [hv, hw]
    exact copyMsg_pended t d s _ _ k
  · beta_reduce at hk' ⊢
    rwa [copyMsg_procTable hk']

theorem field_pended {α : Type} (v : Proc → α) (hv : ∀ x, v (pendedProc x) = v x) (t q : Slot)
    (k : Kernel) : v ((pended t k).procTable q) = v (k.procTable q) :=
  (pended_acts t).field v hv k q

/-- What `deliverCode` does once the task runs again. -/
theorem wokenCode_ignores : Code.Ignores (fun k => Busy (k.procTable t)) (pended t) (
    write .clearRecvfrom t (fun x => { x with pRecvfrom := noTask }) <| deliveredCode s t) := by
  have hf := field_pended (·.pFlags) (fun _ => rfl) t
  have hm := field_pended (·.pMsg) (fun _ => rfl) t
  have hr := field_pended (·.pRecvfrom) (fun _ => rfl) t
  have hto := field_pended (·.pSendto) (fun _ => rfl) t
  refine ignores_write (pended_acts t) ?_ (fun _ _ => rfl) fun k => watched_set fun _ => ?_
  · repeat refine ignores_check ?_ fun k _ => by first | rw [hf] | rw [hm] | rw [hr] | rw [hto]
    exact ignores_done
  · exact fun x _ hx => hx.2.elim noTask_ne_interrupt noTask_ne_any

theorem deliverCode_ignores :
    (deliverCode s t m).Ignores (fun k => Busy (k.procTable t)) (pended t) := by
  have hm := field_pended (·.pMsg) (fun _ => rfl) t
  refine ignores_check ?_ fun k _ => by rw [hm]
  refine ignores_check ?_ fun _ _ => Iff.rfl
  refine ignores_copy ?_ (hm t) fun _ => rfl
  refine ignores_write (pended_acts t) ?_ (fun _ _ => rfl) fun k => watched_set fun _ _ => id
  refine ignores_write (pended_acts t) wokenCode_ignores (fun _ _ => rfl) fun k => ?_
  exact watched_set fun _ x _ => busy_clearReceiving x

theorem deadlockLoop_pended (t : Slot) (k : Kernel) (src dest : Slot) :
    ∀ n p, deadlockLoop (pended t k) src dest n p = deadlockLoop k src dest n p := by
  have hf := field_pended (·.pFlags) (fun _ => rfl) t
  have hm := field_pended (·.pMsg) (fun _ => rfl) t
  have hto := field_pended (·.pSendto) (fun _ => rfl) t
  have hprint : ∀ n p, printCycle (pended t k) src n p = printCycle k src n p := by
    intro n
    induction n with
    | zero => exact fun p => rfl
    | succ n ih =>
      intro p
      unfold printCycle
      simp only [hm, hto, ih]
      rfl
  intro n
  induction n with
  | zero => exact fun p => rfl
  | succ n ih =>
    intro p
    unfold deadlockLoop
    simp only [hf, hto, ih, hprint]
    rfl

theorem sendCode_ignores (hst : s ≠ t) :
    (sendCode s t m).Ignores (fun k => Busy (k.procTable t)) (pended t) := by
  have hf := field_pended (·.pFlags) (fun _ => rfl) t t
  have hr := field_pended (·.pRecvfrom) (fun _ => rfl) t t
  refine ignores_check ?_ fun _ _ => Iff.rfl
  refine ⟨fun k _ => deadlockLoop_pended t k s t _ _, fun d => ?_⟩
  beta_reduce
  split_ifs
  · exact ignores_stop
  · refine ignores_read (fun waits => ?_) fun k _ => by rw [hf, hr]
    split_ifs
    · exact deliverCode_ignores
    · exact queueUpCode_ignores (pended_acts t) pendedProc_keepsLinks busy_watched hst

theorem takeEnd_ignores {from_ : Slot} (hne : from_ ≠ t) :
    (takeEnd t from_ m).Ignores (fun k => Busy (k.procTable t)) (pended t) := by
  have hm := field_pended (·.pMsg) (fun _ => rfl) t from_
  have hf := field_pended (·.pFlags) (fun _ => rfl) t from_
  have hwrite {pc : Pc} {f : Proc → Proc} {next : IpcCode}
      (hn : next.Ignores (fun k => Busy (k.procTable t)) (pended t)) :
      (write pc from_ f next).Ignores (fun k => Busy (k.procTable t)) (pended t) :=
    ignores_write (pended_acts t) hn (fun he => absurd he hne) fun k =>
      watched_set fun he => absurd he hne
  refine hwrite ?_
  refine ignores_check ?_ fun _ _ => Iff.rfl
  refine ignores_check ?_ fun k _ => by rw [hm]
  refine ignores_copy ?_ (fun _ => rfl) hm
  exact hwrite <| hwrite <| hwrite <| hwrite <| ignores_check ignores_done fun k _ => by rw [hf]

theorem takeCode_ignores {from_ : Slot} {prev : Option Slot} (hne : from_ ≠ t) :
    (takeCode t from_ prev m).Ignores (fun k => Busy (k.procTable t)) (pended t) := by
  have hq := field_pended (·.qSending) (fun _ => rfl) t t
  have hn := field_pended (·.nextSending) (fun _ => rfl) t from_
  refine ignores_read (fun first => ?_) fun k _ => by rw [hq]
  split_ifs
  · refine ignores_check ?_ fun _ _ => Iff.rfl
    refine ignores_set (pended_acts t) (takeEnd_ignores hne) (fun k _ => by simp only [hn])
      (fun _ _ _ => rfl) fun k => watched_set fun _ _ => id
  · cases prev with
    | none => exact ignores_stop
    | some q =>
      refine ignores_set (pended_acts t) (takeEnd_ignores hne) (fun k _ => by simp only [hn])
        (fun _ _ _ => rfl) fun k => watched_set fun _ _ => id

end Pended

/-! ## `msg_send` -/

/-- How the code ends with the interrupt before the first of its statements or behind the last. -/
def AtEnds (c : IpcCode) (t : Slot) (k k' : Kernel) : Prop :=
  (informInt k t >>= c.run) = .ok k' ∨ (c.run k >>= fun k => informInt k t) = .ok k'

/-- The places of `msg_send` where it relies on a task that waits for anything still waiting. -/
def SendWindow (k : Kernel) (t : Slot) (pc : Pc) : Prop :=
  (k.procTable t).pFlags &&& receiving ≠ 0 ∧ (k.procTable t).pRecvfrom = any ∧
    pc ∈ [.assertDestMsg, .assertM, .copyToDest, .clearMsg, .clearReceiving]

theorem atEnds_of_ignores {c : IpcCode} {I : Kernel → Prop} (hc : c.Ignores I g)
    (hint : ∀ k, I k → informInt k t = .ok (g k)) (hk : I k) (hrun : c.run k = .ok k₁) :
    AtEnds c t k (g k₁) := by
  refine .inr ?_
  rw [hrun]
  exact hint k₁ (Code.run_ignores hc hk hrun).2

theorem send_busy (hk : Busy (k.procTable t)) (hst : s ≠ t)
    (hrun : (sendCode s t m).run k = .ok k₁) :
    (sendCode s t m).Tolerates (informIntAt t) (AtEnds (sendCode s t m) t k)
      (SendWindow k t) k := by
  refine (Code.Passes.of_ignores (sendCode_ignores hst) (fun k hk => informIntAt_pended hk) hk hrun
    ?_ ?_ trivial).tolerates
  · exact atEnds_of_ignores (sendCode_ignores hst) (fun k hk => informInt_pended hk) hk hrun
  · exact Code.avoids_of_not (fun pc hw => hk ⟨hw.1, .inr hw.2.1⟩) _

/-- Up to the `if` an interrupt that wakes the task up is one before the call. -/
theorem send_prefix {Good : Kernel → Prop} {U : Pc → Prop} {kw : Kernel} {b : Bool} (hst : s ≠ t)
    (hint : informIntAt t k = .ok kw) (hd : deadlock k s t = .ok false)
    (hdw : deadlock kw s t = .ok false) (hgood : ∃ k', (sendCode s t m).run kw = .ok k' ∧ Good k')
    (hU : ∀ pc ∈ [Pc.assertDest, .ifDeadlock, .ifReceiving], ¬ U pc)
    (hb : decide ((k.procTable t).pFlags &&& receiving ≠ 0 ∧
      ((k.procTable t).pRecvfrom = proc2pid s ∨ (k.procTable t).pRecvfrom = any)) = b)
    (hnext : (if b then deliverCode s t m else queueUpCode s t m).Tolerates (informIntAt t) Good U
      k) : (sendCode s t m).Tolerates (informIntAt t) Good U k := by
  have hne : proc2pid s ≠ proc2pid t := fun he => hst (proc2pid_inj he)
  have hcheck (k : Kernel) : (assert (proc2pid s ≠ proc2pid t) >>= fun _ => Except.ok k) =
      .ok k := by
    rw [assert_of hne]
    rfl
  have hrun := hgood
  rw [sendCode, run_check_of hne, Code.run, hdw, ok_bind, if_neg Bool.false_ne_true] at hrun
  refine (Code.Passes.stmt (A := True) hint (hcheck k) (hcheck kw)
    (iff_of_true (hU _ (by simp)) trivial) ?_).tolerates
  refine .load hint hd hdw (iff_of_true (hU _ (by simp)) trivial) ⟨?_, iff_of_true hrun trivial⟩
  refine .load (congrArg Except.ok hb) ?_ hnext
  rw [hint]
  exact iff_of_true hrun (hU _ (by simp))

theorem run_check_not {pc : Pc} {next : IpcCode} {c : Kernel → Prop} [DecidablePred c]
    (hc : ¬ c k) : (check pc c next).run k = .error .assertion := by
  rw [run_check, assert, if_neg hc]
  rfl

theorem awakened_proc (k : Kernel) (t : Slot) (a : Addr) :
    (awakened t a k).procTable t = awakenedProc (k.procTable t) := by
  rw [(awakened_acts t a).proc, if_pos rfl]

theorem copyMsg_null {d : Slot} {b : Addr} : copyMsg d 0 s b k = .error .wild := if_pos (.inl rfl)

/-- A place where the interrupt makes the code stop. -/
theorem stops_at {Good : Kernel → Prop} {U : Pc → Prop} {c : IpcCode} {pc : Pc} {e : Fault}
    (hstop : (informIntAt t k >>= c.run) = .error e) (hU : U pc) :
    (∃ k', (informIntAt t k >>= c.run) = .ok k' ∧ Good k') ↔ ¬ U pc := by
  refine iff_of_false ?_ (not_not.2 hU)
  rintro ⟨k', hk', -⟩
  rw [hstop] at hk'
  cases hk'

theorem check_tolerates {Good : Kernel → Prop} {U : Pc → Prop} {pc : Pc} {next : IpcCode}
    {c : Kernel → Prop} [DecidablePred c] (hc : c k)
    (h0 : (∃ k', (informIntAt t k >>= (check pc c next).run) = .ok k' ∧ Good k') ↔ ¬ U pc)
    (hn : next.Tolerates (informIntAt t) Good U k) :
    (check pc c next).Tolerates (informIntAt t) Good U k := by
  refine .stmt ?_ h0 hn
  rw [assert_of hc]
  rfl

/-- The statements that hand the message over leave the sender running, and no interrupt pending
that was not pending before. -/
theorem wokenCode_ends (hst : s ≠ t) (hrun : Code.run (
    write .clearMsg t (fun x => { x with pMsg := 0 }) <|
    write .clearReceiving t (fun x => { x with pFlags := x.pFlags &&& ~~~receiving }) <|
    write .clearRecvfrom t (fun x => { x with pRecvfrom := noTask }) <|
    deliveredCode s t) k = .ok k') :
    (k'.procTable s).pFlags = (k.procTable s).pFlags ∧ (k'.procTable t).pFlags = 0 ∧
      (k'.procTable t).hasIntMsg = (k.procTable t).hasIntMsg := by
  simp only [deliveredCode, run_write, run_check, assert_bind_eq_ok] at hrun
  obtain ⟨hf, -, -, -, -, -, -, -, -, hrun⟩ := hrun
  obtain rfl := Except.ok.inj hrun
  refine ⟨?_, hf, ?_⟩ <;> simp [Kernel.set_procTable, hst]

theorem deliveredCode_avoids {U : Pc → Prop} (hU : ¬ U .delivered) : (deliveredCode s t).Avoids U :=
  ⟨hU, hU, hU, hU, hU, hU, hU, hU, hU, trivial⟩

theorem deliver_windows {k₂ : Kernel} (hw : WaitsInt (k.procTable t))
    (hr : (k.procTable t).pRecvfrom = any) (hst : s ≠ t) (hs : (k.procTable s).pFlags = 0)
    (hrun : (sendCode s t m).run k = .ok k₁) (hdel : (deliverCode s t m).run k = .ok k₁)
    (hbefore : (sendCode s t m).run (awakened t (k.procTable t).pMsg k) = .ok k₂)
    (hqueued : (k₂.procTable s).pFlags = sending) :
    (deliverCode s t m).Tolerates (informIntAt t) (AtEnds (sendCode s t m) t k)
      (SendWindow k t) k := by
  have hint := informIntAt_awakened hw
  have hU {pc : Pc} (hpc : pc ∈ [Pc.assertDestMsg, .assertM, .copyToDest, .clearMsg,
    .clearReceiving]) :
      SendWindow k t pc := ⟨hw.awaitsInt.1, hr, hpc⟩
  have hmsg : ((awakened t (k.procTable t).pMsg k).procTable t).pMsg = 0 := by
    rw [awakened_proc]
    rfl
  rw [deliverCode, run_check, assert_bind_eq_ok, run_check, assert_bind_eq_ok, run_stmt] at hdel
  obtain ⟨hp, hm, hdel⟩ := hdel
  obtain ⟨kc, hc, hdel⟩ := bind_eq_ok.1 hdel
  refine check_tolerates hp (stops_at (e := .assertion) ?_ (hU (by simp))) ?_
  · rw [hint, ok_bind, run_check_not (not_not.2 hmsg)]
  refine check_tolerates hm (stops_at (e := .wild) ?_ (hU (by simp))) ?_
  · rw [hint, ok_bind, run_check_of (by exact hm), run_stmt, hmsg, copyMsg_null]
    rfl
  refine .stmt hc (stops_at (e := .wild) ?_ (hU (by simp))) ?_
  · rw [hint, ok_bind, run_stmt, hmsg, copyMsg_null]
    rfl
  have hkc := copyMsg_procTable hc
  have hwc : WaitsInt (kc.procTable t) := by rwa [hkc]
  -- the message is there: the interrupt writes over it, and the sender goes on as if it had come
  refine .stmt rfl (iff_of_false ?_ (not_not.2 (hU (by simp)))) ?_
  · rintro ⟨k', hk', hends⟩
    rw [informIntAt_awakened hwc, ok_bind] at hk'
    obtain ⟨hsf, -, hti⟩ := wokenCode_ends hst hk'
    rw [(awakened_acts t _).other _ hst, hkc, hs] at hsf
    rw [awakened_proc] at hti
    rcases hends with hbef | haft
    · rw [informInt_awakened hw, ok_bind, hbefore] at hbef
      obtain rfl := Except.ok.inj hbef
      rw [hqueued] at hsf
      exact absurd hsf (by decide)
    · obtain ⟨-, hf, -⟩ := wokenCode_ends hst hdel
      rw [hrun, ok_bind, informInt_pended fun ha => not_receiving_of_runs hf ha.1] at haft
      obtain rfl := Except.ok.inj haft
      rw [pended, pend, Kernel.set_procTable, if_pos rfl] at hti
      cases hti
  refine .stmt rfl (stops_at (e := .wild) ?_ (hU (by simp))) ?_
  · rw [informIntAt_wild (by simpa [AwaitsInt] using hwc.awaitsInt) (by simp)]
    rfl
  have hf : (kc.procTable t).pFlags &&& ~~~receiving = 0 := by
    rw [hwc.pFlags]
    decide
  have hbusy : Busy (((kc.set t fun x => { x with pMsg := 0 }).set t
      fun x => { x with pFlags := x.pFlags &&& ~~~receiving }).procTable t) := by
    simp [Busy, hf]
  refine (Code.Passes.of_ignores wokenCode_ignores (fun k hk => informIntAt_pended hk) hbusy hdel ?_
    ⟨?_, deliveredCode_avoids ?_⟩ trivial).tolerates
  · refine .inr ?_
    rw [hrun]
    exact informInt_pended (Code.run_ignores wokenCode_ignores hbusy hdel).2
  · exact fun hpc => absurd hpc.2.2 (by decide)
  · exact fun hpc => absurd hpc.2.2 (by decide)

/-- The task waits for interrupts alone: the sender queues up, and neither takes note of the
other. -/
theorem queueUp_tolerates {Q : Kernel → Prop} (hw : WaitsInt (k.procTable t))
    (hr : (k.procTable t).pRecvfrom = interrupt) (hst : s ≠ t)
    (hrun : (queueUpCode s t m).run k = .ok k₁)
    (hgood : ∀ k', informInt k₁ t = .ok k' → Q k') :
    (queueUpCode s t m).Tolerates (informIntAt t) Q (SendWindow k t) k := by
  let P (x : Proc) : Prop := WaitsInt x ∧ x.pMsg = (k.procTable t).pMsg
  have hP : Watched P := by
    refine ⟨fun x q hx => ⟨?_, hx.2⟩, fun x q hx => ⟨?_, hx.2⟩⟩ <;>
      exact ⟨hx.1.pFlags, hx.1.pRecvfrom, hx.1.pMsg, hx.1.pSendto⟩
  have hig := queueUpCode_ignores (m := m) (awakened_acts t (k.procTable t).pMsg)
    awakenedProc_keepsLinks hP hst
  have hint {k' : Kernel} (hk' : P (k'.procTable t)) :
      informInt k' t = .ok (awakened t (k.procTable t).pMsg k') := by
    rw [informInt_awakened hk'.1, hk'.2]
  have hintAt (k' : Kernel) (hk' : P (k'.procTable t)) :
      informIntAt t k' = .ok (awakened t (k.procTable t).pMsg k') := by
    rw [informIntAt_awakened hk'.1, hk'.2]
  have hU (pc : Pc) : ¬ SendWindow k t pc := fun hpc => by
    rw [SendWindow, hr] at hpc
    exact absurd hpc.2.1 (by decide)
  refine (Code.Passes.of_ignores hig hintAt ⟨hw, rfl⟩ hrun ?_ (Code.avoids_of_not hU _)
    trivial).tolerates
  exact hgood _ (hint (Code.run_ignores hig ⟨hw, rfl⟩ hrun).2)

theorem send_waits {k₂ : Kernel} (hw : WaitsInt (k.procTable t)) (hst : s ≠ t)
    (hs : (k.procTable s).pFlags = 0) (hd : deadlock k s t = .ok false)
    (hdw : deadlock (awakened t (k.procTable t).pMsg k) s t = .ok false)
    (hrun : (sendCode s t m).run k = .ok k₁)
    (hbefore : (sendCode s t m).run (awakened t (k.procTable t).pMsg k) = .ok k₂)
    (hqueued : (k₂.procTable s).pFlags = sending) :
    (sendCode s t m).Tolerates (informIntAt t) (AtEnds (sendCode s t m) t k)
      (SendWindow k t) k := by
  have hgood : ∃ k', (sendCode s t m).run (awakened t (k.procTable t).pMsg k) = .ok k' ∧
      AtEnds (sendCode s t m) t k k' := by
    refine ⟨k₂, hbefore, .inl ?_⟩
    rw [informInt_awakened hw]
    exact hbefore
  have hU : ∀ pc ∈ [Pc.assertDest, .ifDeadlock, .ifReceiving], ¬ SendWindow k t pc := by
    intro pc hpc hwin
    have hpc' := hwin.2.2
    revert hpc hpc'
    cases pc <;> simp
  have hrest := hrun
  rw [sendCode, run_check_of (by exact fun he => hst (proc2pid_inj he)), Code.run, hd, ok_bind,
    if_neg Bool.false_ne_true, run_read] at hrest
  refine send_prefix hst (informIntAt_awakened hw) hd hdw hgood hU rfl ?_
  rcases hw.pRecvfrom with hr | hr
  · have hno : ¬ ((k.procTable t).pFlags &&& receiving ≠ 0 ∧
        ((k.procTable t).pRecvfrom = proc2pid s ∨ (k.procTable t).pRecvfrom = any)) := by
      rw [hr]
      exact fun h => h.2.elim (proc2pid_ne_interrupt s).symm (by decide)
    rw [decide_eq_false hno, if_neg Bool.false_ne_true] at hrest ⊢
    refine queueUp_tolerates hw hr hst hrest fun k' hk' => .inr ?_
    rw [hrun]
    exact hk'
  · have hyes : (k.procTable t).pFlags &&& receiving ≠ 0 ∧
        ((k.procTable t).pRecvfrom = proc2pid s ∨ (k.procTable t).pRecvfrom = any) :=
      ⟨hw.awaitsInt.1, .inr hr⟩
    rw [decide_eq_true hyes, if_pos rfl] at hrest ⊢
    exact deliver_windows hw hr hst hs hrun hrest hbefore hqueued

/-! ## `msg_receive` -/

def TakesInt (k : Kernel) (p : Slot) (src : Int) : Prop :=
  (k.procTable p).hasIntMsg = true ∧ (src = any ∨ src = interrupt)

/-- There is a queued process whose message is taken. -/
def Finds (k : Kernel) (p : Slot) (src : Int) : Prop :=
  src = any ∧ (k.procTable p).qSending ≠ none ∨ ∃ s, src = proc2pid s ∧ SendsTo k s p

/-- The places of `msg_receive` where an interrupt that comes only now is asserted not to be
pending, or wakes the task up before it has gone to sleep. -/
def ReceiveWindow (k : Kernel) (p : Slot) (src : Int) (pc : Pc) : Prop :=
  TakesInt k p src ∧ pc = .intTaken ∨
  ¬ TakesInt k p src ∧ ¬ Finds k p src ∧ ((∃ s, src = proc2pid s) ∨
    pc ∈ [.choose, .setReceiving, .setMsg, .setRecvfrom, .block, .assignReceiving, .assertMsg,
      .assertRecvfrom])

section Passes

variable {Good : Kernel → Prop} {U : Pc → Prop} {A : Prop} {kp : Kernel} {pc : Pc} {next : IpcCode}

theorem check_passes {c : Kernel → Prop} [DecidablePred c] (hint : informIntAt t k = .ok kp)
    (hc : c k) (hcp : c kp) (hU : ¬ U pc ↔ A) (hn : next.Passes (informIntAt t) Good U A k kp) :
    (check pc c next).Passes (informIntAt t) Good U A k kp := by
  refine .stmt hint ?_ ?_ hU hn
  · rw [assert_of hc]
    rfl
  · rw [assert_of hcp]
    rfl

theorem read_passes {α : Type} {v : Kernel → α} {a : α} {next : α → IpcCode}
    (hint : informIntAt t k = .ok kp) (hv : v k = a) (hvp : v kp = a) (hU : ¬ U pc ↔ A)
    (hn : (next a).Passes (informIntAt t) Good U A k kp) :
    (read pc v next).Passes (informIntAt t) Good U A k kp :=
  .load hint (congrArg Except.ok hv) (congrArg Except.ok hvp) hU hn

/-! An interrupt that stays pending changes nothing of what the choice of a sender reads. -/

theorem rendezvousCode_passes {from_ : Slot} (hint : informIntAt t k = .ok (pended t k))
    (hU : ¬ U .choose ↔ A) (hr : assertRendezvous k p from_ = .ok ())
    (hn : next.Passes (informIntAt t) Good U A k (pended t k)) :
    (rendezvousCode p from_ next).Passes (informIntAt t) Good U A k (pended t k) := by
  have hf := field_pended (·.pFlags) (fun _ => rfl) t
  have hm := field_pended (·.pMsg) (fun _ => rfl) t
  have hrf := field_pended (·.pRecvfrom) (fun _ => rfl) t
  have hto := field_pended (·.pSendto) (fun _ => rfl) t
  have hq := field_pended (·.qSending) (fun _ => rfl) t
  simp only [assertRendezvous, assert_bind_eq_ok, assert_eq_ok] at hr
  obtain ⟨h1, h2, h3, h4, h5, h6, h7, h8, h9⟩ := hr
  refine check_passes hint h1 ((hf p k).trans h1) hU ?_
  refine check_passes hint h2 ((hm p k).trans h2) hU ?_
  refine check_passes hint h3 ((hrf p k).trans h3) hU ?_
  refine check_passes hint h4 ((hto p k).trans h4) hU ?_
  refine check_passes hint h5 ((hq p k).trans_ne h5) hU ?_
  refine check_passes hint h6 ((hf from_ k).trans h6) hU ?_
  refine check_passes hint h7 ((hm from_ k).trans_ne h7) hU ?_
  refine check_passes hint h8 ((hrf from_ k).trans h8) hU ?_
  exact check_passes hint h9 ((hto from_ k).trans h9) hU hn

theorem findCode_passes {from_ : Slot} {next : Option Slot → IpcCode}
    (hint : informIntAt t k = .ok (pended t k)) (hU : ¬ U .choose ↔ A)
    (hs : (k.procTable from_).pFlags &&& sending ≠ 0) {prev' x : Option Slot}
    (hn : (next prev').Passes (informIntAt t) Good U A k (pended t k)) :
    ∀ {n : ℕ} {prev q : Option Slot},
      findPrev (fun q => (k.procTable q).nextSending) from_ n prev q = some (prev', x) →
        (findCode from_ n prev q next).Passes (informIntAt t) Good U A k (pended t k)
  | n, prev, none, hfind => by
    have hp : prev = prev' := by
      cases n <;> exact (Prod.mk.inj (Option.some.inj hfind)).1
    subst hp
    cases n <;> exact hn
  | 0, prev, some q, hfind => by cases hfind
  | n + 1, prev, some q, hfind => by
    have hf := field_pended (·.pFlags) (fun _ => rfl) t from_ k
    rw [findPrev] at hfind
    rw [findCode]
    refine check_passes hint hs (by rwa [hf]) hU ?_
    split_ifs at hfind ⊢
    · obtain ⟨rfl, -⟩ := Prod.mk.inj (Option.some.inj hfind)
      exact hn
    · exact read_passes hint rfl (field_pended (·.nextSending) (fun _ => rfl) t q k) hU
        (findCode_passes hint hU hs hn hfind)

theorem chooseCode_passes {next : Option (Slot × Option Slot) → IpcCode}
    {c : Option (Slot × Option Slot)} (hint : informIntAt p k = .ok (pended p k))
    (hU : ¬ U .choose ↔ A) (hc : chooseSender k p src = .ok c)
    (hn : (next c).Passes (informIntAt p) Good U A k (pended p k)) :
    (chooseCode p src next).Passes (informIntAt p) Good U A k (pended p k) := by
  have hq := field_pended (·.qSending) (fun _ => rfl) p p k
  unfold chooseSender at hc
  unfold chooseCode
  split_ifs at hc ⊢ with hany hsrc
  · refine read_passes hint rfl (by rw [hq]) hU ?_
    split at hc
    · rename_i q hqs
      obtain ⟨⟨⟩, hr, hc⟩ := bind_eq_ok.1 hc
      obtain rfl := Except.ok.inj hc
      rw [hqs, decide_eq_true (Option.some_ne_none q), if_pos rfl]
      refine .load hint ?_ ?_ hU (rendezvousCode_passes hint hU hr hn)
      · beta_reduce
        rw [hqs]
      · beta_reduce
        rw [hq, hqs]
    · rename_i hqs
      obtain rfl := Except.ok.inj hc
      rw [hqs]
      exact hn
  · obtain ⟨q, hat, hc⟩ := bind_eq_ok.1 hc
    rw [hat]
    dsimp only
    have hf := field_pended (·.pFlags) (fun _ => rfl) p q k
    have hto := field_pended (·.pSendto) (fun _ => rfl) p q k
    refine read_passes hint rfl (by rw [hf, hto]) hU ?_
    split_ifs at hc with hs
    · rw [decide_eq_true hs, if_pos rfl]
      rw [assert_bind_eq_ok] at hc
      obtain ⟨hqs, hc⟩ := hc
      split at hc
      · cases hc
      · rename_i prev x hfind
        obtain ⟨⟨⟩, hr, hc⟩ := bind_eq_ok.1 hc
        obtain rfl := Except.ok.inj hc
        refine read_passes hint rfl hq hU (check_passes hint hqs hqs hU ?_)
        exact findCode_passes hint hU hs.1 (rendezvousCode_passes hint hU hr hn) hfind
    · obtain rfl := Except.ok.inj hc
      rw [decide_eq_false hs, if_neg Bool.false_ne_true]
      exact hn
  · obtain rfl := Except.ok.inj hc
    have hat : ∃ e, procAt src = .error e := by
      unfold procAt
      have hlt : ¬ (0 ≤ src ∧ src.toNat < nrTasks + nrProcs) := by omega
      exact ⟨_, dif_neg hlt⟩
    obtain ⟨e, hat⟩ := hat
    rw [hat]
    exact hn

end Passes

theorem busy_of_runs {x : Proc} (hf : x.pFlags = 0) : Busy x :=
  fun hx => not_receiving_of_runs hf hx.1

/-- An interrupt that is pending already. -/
theorem pended_of_pending (hi : (k.procTable t).hasIntMsg = true) :
    pended t k = k.note (.informed t) := by
  unfold pended pend
  refine Kernel.set_self ?_
  rw [Kernel.note_procTable, ← hi]

theorem intTakenCode_run (hf : (k.procTable p).pFlags = 0) (hm : (k.procTable p).pMsg = 0)
    (hto : (k.procTable p).pSendto = noTask) (hi : (k.procTable p).hasIntMsg = false) :
    (intTakenCode p).run k = .ok k := by
  rw [intTakenCode, run_check_of (by exact hf), run_check_of (by exact hm),
    run_check_of (by exact hto),
    run_check_of (by exact hi)]
  rfl

/-- The interrupt taken, another one is noticed by the last of the assertions. -/
theorem intTaken_windows {Good : Kernel → Prop} {U : Pc → Prop} (hU : U .intTaken)
    (hf : (k.procTable p).pFlags = 0) (hm : (k.procTable p).pMsg = 0)
    (hto : (k.procTable p).pSendto = noTask) (hi : (k.procTable p).hasIntMsg = false)
    (hgood : Good (pended p k)) : (intTakenCode p).Tolerates (informIntAt p) Good U k := by
  have hint := informIntAt_pended (busy_of_runs hf)
  have hfp := (field_pended (·.pFlags) (fun _ => rfl) p p k).trans hf
  have hmp := (field_pended (·.pMsg) (fun _ => rfl) p p k).trans hm
  have htop := (field_pended (·.pSendto) (fun _ => rfl) p p k).trans hto
  have hip : ¬ ((pended p k).procTable p).hasIntMsg = false := by
    rw [(pended_acts p).proc, if_pos rfl]
    exact Bool.noConfusion
  refine check_tolerates hf (stops_at (e := .assertion) ?_ hU) ?_
  · rw [hint, ok_bind, run_check_of (by exact hfp), run_check_of (by exact hmp),
      run_check_of (by exact htop), run_check_not hip]
  refine check_tolerates hm (stops_at (e := .assertion) ?_ hU) ?_
  · rw [hint, ok_bind, run_check_of (by exact hmp), run_check_of (by exact htop), run_check_not hip]
  refine check_tolerates hto (stops_at (e := .assertion) ?_ hU) ?_
  · rw [hint, ok_bind, run_check_of (by exact htop), run_check_not hip]
  refine check_tolerates hi (stops_at (e := .assertion) ?_ hU) ?_
  · rw [hint, ok_bind, run_check_not hip]
  exact (Code.Passes.done hint hgood trivial).tolerates

theorem storeInt_note {dst : Addr} (hdst : va2la k p m = .ok dst)
    (hstore : k' = { k with mem := Message.store k.mem dst hardIntMsg }) (e : Event) :
    (va2la (k.note e) p m >>= fun dst => Except.ok
      { k.note e with mem := Message.store (k.note e).mem dst hardIntMsg }) = .ok (k'.note e) ∧
      k'.procTable = k.procTable := by
  rw [va2la_congr (Kernel.note_procTable k e), hdst, hstore]
  exact ⟨rfl, rfl⟩

theorem receive_takes (hp : (k.procTable p).pFlags = 0) (hi : TakesInt k p src)
    (hrun : (receiveCode p src m).run k = .ok k₁) :
    (receiveCode p src m).Tolerates (informIntAt p) (AtEnds (receiveCode p src m) p k)
      (ReceiveWindow k p src) k := by
  have htakes : decide ((k.procTable p).hasIntMsg = true ∧ (src = any ∨ src = interrupt)) = true :=
    decide_eq_true hi
  have hrest := hrun
  rw [receiveCode, run_check, assert_bind_eq_ok, run_read, if_pos htakes, intCode, run_check,
    assert_bind_eq_ok, run_stmt] at hrest
  obtain ⟨hne, hm, hrest⟩ := hrest
  obtain ⟨k₂, hstore, hrest⟩ := bind_eq_ok.1 hrest
  obtain ⟨dst, hdst, hmem⟩ := bind_eq_ok.1 hstore
  obtain ⟨hnote, htab⟩ := storeInt_note hdst (Except.ok.inj hmem).symm (.informed p)
  rw [run_write, intTakenCode, run_check, assert_bind_eq_ok, run_check, assert_bind_eq_ok,
    run_check,
    assert_bind_eq_ok, run_check, assert_bind_eq_ok] at hrest
  obtain ⟨hf, hmsg, hto, hint, hrest⟩ := hrest
  obtain rfl := Except.ok.inj hrest
  -- where one is pending, the interrupt is but an event more
  have hagain {k' : Kernel} (ht : k'.procTable = k.procTable) :
      informInt k' p = .ok (k'.note (.informed p)) := by
    rw [informInt_pended, pended_of_pending]
    · rw [ht]
      exact hi.1
    · rw [AwaitsInt, ht]
      exact busy_of_runs hp
  have hagainAt {k' : Kernel} (ht : k'.procTable = k.procTable) :
      informIntAt p k' = .ok (k'.note (.informed p)) := by
    rw [informIntAt, if_neg, hagain ht]
    rw [ht]
    exact fun hr => not_receiving_of_runs hp hr.1
  have hbefore : (receiveCode p src m).run (k.note (.informed p)) =
      .ok ((k₂.note (.informed p)).set p fun x => { x with hasIntMsg := false }) := by
    rw [receiveCode, run_check_of (by exact hne), run_read, if_pos (by exact htakes), intCode,
      run_check_of (by exact hm), run_stmt, hnote, ok_bind, run_write]
    exact intTakenCode_run hf hmsg hto hint
  have hgood : AtEnds (receiveCode p src m) p k
      ((k₂.note (.informed p)).set p fun x => { x with hasIntMsg := false }) := by
    refine .inl ?_
    rw [hagain rfl]
    exact hbefore
  have hU {pc : Pc} (hpc : pc ≠ .intTaken) : ¬ ReceiveWindow k p src pc ↔ True :=
    iff_true_intro fun hw => hw.elim (fun h => hpc h.2) fun h => h.1 hi
  have hend : (intTakenCode p).Passes (informIntAt p) (AtEnds (receiveCode p src m) p k)
      (ReceiveWindow k p src) True (k₂.set p fun x => { x with hasIntMsg := false })
      ((k₂.note (.informed p)).set p fun x => { x with hasIntMsg := false }) := by
    refine ⟨intTaken_windows (.inl ⟨hi, rfl⟩) hf hmsg hto hint (.inr ?_), iff_true_intro ?_⟩
    · rw [hrun]
      exact informInt_pended fun ha => not_receiving_of_runs hf ha.1
    · exact ⟨_, intTakenCode_run hf hmsg hto hint, hgood⟩
  rw [receiveCode]
  refine Code.Passes.tolerates (?_ : Code.Passes _ _ _ True _ k (k.note (.informed p)))
  refine check_passes (hagainAt rfl) hne hne (hU (by decide)) ?_
  refine read_passes (hagainAt rfl) htakes htakes (hU (by decide)) ?_
  rw [if_pos rfl]
  refine check_passes (hagainAt rfl) hm hm (hU (by decide)) ?_
  refine .stmt (hagainAt rfl) hstore hnote (hU (by decide)) ?_
  exact .stmt (hagainAt htab) rfl rfl (hU (by decide)) hend

/-- Up to the first `if` an interrupt is one before the call. -/
theorem receive_prefix {Good : Kernel → Prop} {U : Pc → Prop} (hp : (k.procTable p).pFlags = 0)
    (hi : (k.procTable p).hasIntMsg = false) (hne : proc2pid p ≠ src)
    (hgood : ∃ k', (receiveCode p src m).run (pended p k) = .ok k' ∧ Good k')
    (hU : ¬ U .assertSrc ∧ ¬ U .ifIntMsg)
    (hnext : (chooseCode p src (copyCode p src m)).Tolerates (informIntAt p) Good U k) :
    (receiveCode p src m).Tolerates (informIntAt p) Good U k := by
  have hint := informIntAt_pended (busy_of_runs hp)
  have hrun := hgood
  rw [receiveCode, run_check_of (by exact hne)] at hrun
  have htakes : decide ((k.procTable p).hasIntMsg = true ∧ (src = any ∨ src = interrupt)) =
      false := by
    rw [hi]
    simp
  rw [receiveCode]
  refine (check_passes (A := True) hint hne hne (iff_true_intro hU.1)
    ⟨?_, iff_true_intro hrun⟩).tolerates
  refine .load (congrArg Except.ok htakes) ?_ hnext
  rw [hint]
  exact iff_of_true hrun hU.2

theorem take_passes {Good : Kernel → Prop} {U : Pc → Prop} {from_ : Slot} {prev : Option Slot}
    (hp : (k.procTable p).pFlags = 0) (hne : from_ ≠ p)
    (hrun : (takeCode p from_ prev m).run k = .ok k₁)
    (hgood : ∀ k', informInt k₁ p = .ok k' → Good k') (hU : ∀ pc, ¬ U pc) :
    (takeCode p from_ prev m).Passes (informIntAt p) Good U True k (pended p k) := by
  refine .of_ignores (takeCode_ignores hne) (fun k hk => informIntAt_pended hk)
    (busy_of_runs hp) hrun (hgood _ (informInt_pended ?_)) (Code.avoids_of_not hU _) trivial
  exact (Code.run_ignores (takeCode_ignores hne) (busy_of_runs hp) hrun).2

/-- A message is taken out of the queue. -/
theorem receive_finds {from_ : Slot} {prev : Option Slot} (hp : (k.procTable p).pFlags = 0)
    (hi : ¬ TakesInt k p src) (hfind : Finds k p src)
    (hc : chooseSender k p src = .ok (some (from_, prev))) (hne : from_ ≠ p)
    (hrun : (receiveCode p src m).run k = .ok k₁)
    (hbefore : src = any → ∃ k', (receiveCode p src m).run (pended p k) = .ok k') :
    (receiveCode p src m).Tolerates (informIntAt p) (AtEnds (receiveCode p src m) p k)
      (ReceiveWindow k p src) k := by
  have hint := informIntAt_pended (busy_of_runs hp)
  have hrest := hrun
  have hno : ¬ ((k.procTable p).hasIntMsg = true ∧ (src = any ∨ src = interrupt)) := hi
  have htakes : ¬ decide ((k.procTable p).hasIntMsg = true ∧ (src = any ∨ src = interrupt)) =
      true :=
    fun h => hno (of_decide_eq_true h)
  rw [receiveCode, run_check, assert_bind_eq_ok, run_read, if_neg htakes, chooseCode_run, hc,
    ok_bind] at hrest
  obtain ⟨hself, hrest⟩ := hrest
  have hU (pc : Pc) : ¬ ReceiveWindow k p src pc :=
    fun hw => hw.elim (fun h => hi h.1) fun h => h.2.1 hfind
  have htake : (takeCode p from_ prev m).Passes (informIntAt p) (AtEnds (receiveCode p src m) p k)
      (ReceiveWindow k p src) True k (pended p k) :=
    take_passes hp hne hrest (fun k' hk' => .inr (by rw [hrun]; exact hk')) hU
  have hchoose : (chooseCode p src (copyCode p src m)).Passes _ _ _ _ _ _ :=
    chooseCode_passes hint (iff_true_intro (hU _)) hc htake
  by_cases hany : src = any
  · obtain ⟨k₂, hk₂⟩ := hbefore hany
    have hpend : (k.procTable p).hasIntMsg = false := by
      by_contra hn
      exact hi ⟨by simpa using hn, .inl hany⟩
    refine receive_prefix hp hpend hself ⟨k₂, hk₂, .inl ?_⟩ ⟨hU _, hU _⟩ hchoose.tolerates
    rw [informInt_pended (busy_of_runs hp)]
    exact hk₂
  · have hint' : src ≠ interrupt := by
      rintro rfl
      rcases hfind with ⟨h, -⟩ | ⟨s, h, -⟩
      · exact hany h
      · exact proc2pid_ne_interrupt s h.symm
    rw [receiveCode]
    refine (check_passes hint hself hself (iff_true_intro (hU _)) ?_).tolerates
    have hno' (b : Bool) : decide (b = true ∧ (src = any ∨ src = interrupt)) = false :=
      decide_eq_false fun h => h.2.elim hany hint'
    exact read_passes hint (hno' _) (hno' _) (iff_true_intro (hU _)) hchoose

/-- The task sleeps and can be woken up: an interrupt gets it out of its sleep before it has looked
around, and only when it has does it go unnoticed. -/
theorem blockedCode_wakes {Good : Kernel → Prop} {U : Pc → Prop} (hw : WaitsInt (k.procTable p))
    (hi : (k.procTable p).hasIntMsg = false) (hU : ∀ pc, U pc ↔ pc ∈
      [Pc.choose, .setReceiving, .setMsg, .setRecvfrom, .block, .assignReceiving, .assertMsg,
      .assertRecvfrom])
    (hgood : Good (awakened p (k.procTable p).pMsg k)) :
    (blockedCode p).Tolerates (informIntAt p) Good U k := by
  have hint := informIntAt_awakened hw
  have hflags : ((awakened p (k.procTable p).pMsg k).procTable p).pFlags = 0 := by
    rw [awakened_proc, awakenedProc]
    dsimp only
    rw [hw.pFlags]
    decide
  have hmsg : ((awakened p (k.procTable p).pMsg k).procTable p).pMsg = 0 := by
    rw [awakened_proc]
    rfl
  have hr : ((awakened p (k.procTable p).pMsg k).procTable p).pRecvfrom = noTask := by
    rw [awakened_proc]
    rfl
  have hrecv : (k.procTable p).pRecvfrom ≠ noTask :=
    fun h => hw.pRecvfrom.elim (fun h' => noTask_ne_interrupt (h.symm.trans h'))
      fun h' => noTask_ne_any (h.symm.trans h')
  have hset : (k.set p fun x => { x with pFlags := receiving }) = k :=
    Kernel.set_self (by rw [← hw.pFlags])
  have hblocked : (k.procTable p).pFlags ≠ 0 := by
    rw [hw.pFlags]
    decide
  have hwin {pc : Pc} (hpc : pc ∈ [Pc.choose, .setReceiving, .setMsg, .setRecvfrom, .block,
      .assignReceiving, .assertMsg, .assertRecvfrom]) : U pc := (hU pc).2 hpc
  rw [blockedCode]
  refine check_tolerates hblocked (stops_at (e := .assertion) ?_ (hwin (by simp))) ?_
  · rw [hint, ok_bind, run_check_not (not_not.2 hflags)]
  have hok : Except.ok (k.set p fun x => { x with pFlags := receiving }) =
      (Except.ok k : Except Fault Kernel) := congrArg Except.ok hset
  refine .stmt hok (stops_at (e := .assertion) ?_ (hwin (by simp))) ?_
  · rw [hint, ok_bind, ← write, run_write, run_check_not]
    rw [Kernel.set_procTable, if_pos rfl]
    exact not_not.2 hmsg
  refine check_tolerates hw.pMsg (stops_at (e := .assertion) ?_ (hwin (by simp))) ?_
  · rw [hint, ok_bind, run_check_not (not_not.2 hmsg)]
  refine check_tolerates hrecv (stops_at (e := .assertion) ?_ (hwin (by simp))) ?_
  · rw [hint, ok_bind, run_check_not (not_not.2 hr)]
  have hsafe {pc : Pc} (hpc : pc = .assertSendto ∨ pc = .assertNoInt) : ¬ U pc ↔ True := by
    rw [hU]
    rcases hpc with rfl | rfl <;> simp
  refine (check_passes hint hw.pSendto ?_ (hsafe (.inl rfl)) ?_).tolerates
  · rw [awakened_proc]
    exact hw.pSendto
  refine check_passes hint hi ?_ (hsafe (.inr rfl)) (.done hint hgood trivial)
  rw [awakened_proc]
  rfl

/-- The task does not take interrupts, or one is pending already: at the end there is one. -/
theorem blockedCode_pends {Good : Kernel → Prop} {U : Pc → Prop} (hb : Busy (k.procTable p))
    (hf : (k.procTable p).pFlags = receiving) (hm : (k.procTable p).pMsg ≠ 0)
    (hr : (k.procTable p).pRecvfrom ≠ noTask) (hto : (k.procTable p).pSendto = noTask)
    (hi : (k.procTable p).hasIntMsg = false) (hU : ∀ pc, U pc) (hgood : Good (pended p k)) :
    (blockedCode p).Passes (informIntAt p) Good U False k (pended p k) := by
  have hint := informIntAt_pended hb
  have hset : (k.set p fun x => { x with pFlags := receiving }) = k :=
    Kernel.set_self (by rw [← hf])
  have hset' : ((pended p k).set p fun x => { x with pFlags := receiving }) = pended p k :=
    Kernel.set_self (by rw [(pended_acts p).proc, if_pos rfl, pendedProc, ← hf])
  have hblocked : (k.procTable p).pFlags ≠ 0 := by
    rw [hf]
    decide
  have hwin (pc : Pc) : ¬ U pc ↔ False := iff_false_intro (not_not.2 (hU pc))
  refine check_passes hint hblocked ?_ (hwin _) ?_
  · rwa [field_pended (·.pFlags) (fun _ => rfl)]
  refine .stmt hint (congrArg Except.ok hset) (congrArg Except.ok hset') (hwin _) ?_
  refine check_passes hint hm ?_ (hwin _) ?_
  · rwa [field_pended (·.pMsg) (fun _ => rfl)]
  refine check_passes hint hr ?_ (hwin _) ?_
  · rwa [field_pended (·.pRecvfrom) (fun _ => rfl)]
  refine check_passes hint hto ?_ (hwin _) ?_
  · rwa [field_pended (·.pSendto) (fun _ => rfl)]
  have hnoticed : (check .assertNoInt (fun k => (k.procTable p).hasIntMsg = false) .done).run
      (pended p k) = .error .assertion := by
    refine run_check_not ?_
    rw [(pended_acts p).proc, if_pos rfl]
    exact Bool.noConfusion
  refine ⟨check_tolerates hi (stops_at (e := .assertion) ?_ (hU _)) ?_, iff_false_intro ?_⟩
  · rw [hint, ok_bind, hnoticed]
  · exact (Code.Passes.done hint hgood trivial).tolerates
  · rintro ⟨k', hk', -⟩
    rw [hnoticed] at hk'
    cases hk'

theorem blockedCode_noticed {Good : Kernel → Prop} (hi : (k.procTable p).hasIntMsg = true) :
    ¬ ∃ k', (blockedCode p).run k = .ok k' ∧ Good k' := by
  rintro ⟨k', hk', -⟩
  simp only [blockedCode, run_check, run_write, assert_bind_eq_ok, Kernel.set_procTable,
    if_pos] at hk'
  obtain ⟨-, -, -, -, hno, -⟩ := hk'
  rw [hi] at hno
  cases hno

/-- The task has not gone to sleep yet. -/
theorem write_passes {Good : Kernel → Prop} {U : Pc → Prop} {pc : Pc} {f : Proc → Proc}
    {next : IpcCode} (hb : Busy (k.procTable p)) (hf : ∀ x, f (pendedProc x) = pendedProc (f x))
    (hU : U pc) (hn : next.Passes (informIntAt p) Good U False (k.set p f) (pended p (k.set p f))) :
    (write pc p f next).Passes (informIntAt p) Good U False k (pended p k) := by
  refine .stmt (informIntAt_pended hb) rfl ?_ (iff_false_intro (not_not.2 hU)) hn
  exact congrArg Except.ok ((pended_acts p).set k p f fun _ => hf).symm

theorem blockCode_passes {Good : Kernel → Prop} {U : Pc → Prop} (hp : Idle (k.procTable p))
    (hi : (k.procTable p).hasIntMsg = false) (hm : m ≠ 0) (hsrc : src ≠ noTask)
    (hU : (src = any ∨ src = interrupt) ∧ (∀ pc, U pc ↔ pc ∈ [Pc.choose, .setReceiving, .setMsg,
        .setRecvfrom, .block, .assignReceiving, .assertMsg, .assertRecvfrom]) ∨
      ¬ (src = any ∨ src = interrupt) ∧ ∀ pc, U pc)
    (hgood : ∀ k', informInt (waitFor k p src m) p = .ok k' → Good k') :
    (blockCode p src m).Passes (informIntAt p) Good U False k (pended p k) := by
  have hwin {pc : Pc} (hpc : pc ∈ [Pc.setReceiving, .setMsg, .setRecvfrom]) : U pc := by
    rcases hU with ⟨-, hU⟩ | ⟨-, hU⟩
    · rw [hU]
      revert hpc
      cases pc <;> simp
    · exact hU pc
  have hbusy {x : Proc} (hx : x.pRecvfrom = noTask) : Busy x := fun h =>
    h.2.elim (fun h' => noTask_ne_interrupt (hx.symm.trans h'))
      fun h' => noTask_ne_any (hx.symm.trans h')
  refine write_passes (hbusy hp.pRecvfrom) (fun _ => rfl) (hwin (by simp)) ?_
  refine write_passes (hbusy ?_) (fun _ => rfl) (hwin (by simp)) ?_
  · rw [Kernel.set_procTable, if_pos rfl]
    exact hp.pRecvfrom
  refine write_passes (hbusy ?_) (fun _ => rfl) (hwin (by simp)) ?_
  · rw [Kernel.set_procTable, if_pos rfl, Kernel.set_procTable, if_pos rfl]
    exact hp.pRecvfrom
  have hflags : (k.procTable p).pFlags ||| receiving = receiving := by
    rw [hp.pFlags]
    decide
  have hwait : (k.set p fun x => { x with
      pFlags := x.pFlags ||| receiving, pMsg := m, pRecvfrom := src }) = waitFor k p src m :=
    Kernel.set_congr (by rw [hflags])
  rw [Kernel.set_set, Kernel.set_set, hwait]
  have hself : (waitFor k p src m).procTable p =
      { k.procTable p with pFlags := receiving, pMsg := m, pRecvfrom := src } := by
    rw [waitFor, Kernel.set_procTable, if_pos rfl]
  rcases hU with ⟨hint, hU⟩ | ⟨hint, hU⟩
  · have hw : WaitsInt ((waitFor k p src m).procTable p) := by
      rw [hself]
      exact ⟨rfl, hint.symm, hm, hp.pSendto⟩
    refine ⟨blockedCode_wakes hw ?_ hU (hgood _ (informInt_awakened hw)), iff_false_intro ?_⟩
    · rw [hself]
      exact hi
    · refine blockedCode_noticed ?_
      rw [(pended_acts p).proc, if_pos rfl]
      rfl
  · have hb : Busy ((waitFor k p src m).procTable p) := by
      rw [hself]
      exact fun h => hint h.2.symm
    refine blockedCode_pends hb ?_ ?_ ?_ ?_ ?_ hU (hgood _ (informInt_pended hb)) <;> rw [hself]
    · exact hm
    · exact hsrc
    · exact hp.pSendto
    · exact hi

/-- There is nothing to take. -/
theorem receive_blocks (hp : Idle (k.procTable p)) (hi : ¬ TakesInt k p src)
    (hfind : ¬ Finds k p src) (hc : chooseSender k p src = .ok none) (hsrc : ValidSrc p src)
    (hrun : (receiveCode p src m).run k = .ok k₁)
    (hbefore : src = any ∨ src = interrupt →
      ∃ k', (receiveCode p src m).run (pended p k) = .ok k') :
    (receiveCode p src m).Tolerates (informIntAt p) (AtEnds (receiveCode p src m) p k)
      (ReceiveWindow k p src) k := by
  have hint := informIntAt_pended (busy_of_runs hp.pFlags)
  have hno : ¬ ((k.procTable p).hasIntMsg = true ∧ (src = any ∨ src = interrupt)) := hi
  have hrest := hrun
  rw [receiveCode, run_check, assert_bind_eq_ok, run_read,
    if_neg fun h => hno (of_decide_eq_true h), chooseCode_run, hc, ok_bind, copyCode,
    blockCode_run] at hrest
  obtain ⟨hself, hrest⟩ := hrest
  obtain ⟨k₂, hblock, hk₂⟩ := map_eq_ok.1 hrest
  obtain ⟨rfl, htask, hm, hto, hnone⟩ := blockReceiving_ok hblock
  obtain rfl : k₁ = waitFor k p src m := hk₂.symm
  have hgood : ∀ k', informInt (waitFor k p src m) p = .ok k' →
      AtEnds (receiveCode p src m) p k k' := by
    intro k' hk'
    refine .inr ?_
    rw [hrun]
    exact hk'
  by_cases hsome : src = any ∨ src = interrupt
  · have hspec : ¬ ∃ s, src = proc2pid s := by
      rintro ⟨s, rfl⟩
      exact hsome.elim (proc2pid_ne_any s) (proc2pid_ne_interrupt s)
    have hU (pc : Pc) : ReceiveWindow k p src pc ↔ pc ∈ [Pc.choose, .setReceiving, .setMsg,
        .setRecvfrom, .block, .assignReceiving, .assertMsg, .assertRecvfrom] := by
      simp [ReceiveWindow, hi, hfind, hspec]
    have hblocks := blockCode_passes hp hnone hm htask (.inl ⟨hsome, hU⟩) hgood
    have hchoose : (chooseCode p src (copyCode p src m)).Passes _ _ _ _ _ _ :=
      chooseCode_passes hint (iff_false_intro (not_not.2 ((hU _).2 (by simp)))) hc hblocks
    obtain ⟨k₂, hk₂⟩ := hbefore hsome
    refine receive_prefix hp.pFlags hnone hself ⟨k₂, hk₂, .inl ?_⟩ ?_ hchoose.tolerates
    · rw [informInt_pended (busy_of_runs hp.pFlags)]
      exact hk₂
    · simp [hU]
  · have hspec : ∃ s, src = proc2pid s := by
      rcases hsrc with h | h | ⟨s, h, -⟩
      · exact absurd (.inl h) hsome
      · exact absurd (.inr h) hsome
      · exact ⟨s, h⟩
    have hU (pc : Pc) : ReceiveWindow k p src pc := .inr ⟨hi, hfind, .inl hspec⟩
    have hwin {pc : Pc} : ¬ ReceiveWindow k p src pc ↔ False := iff_false_intro (not_not.2 (hU pc))
    have hblocks := blockCode_passes hp hnone hm htask (.inr ⟨hsome, hU⟩) hgood
    rw [receiveCode]
    refine (check_passes hint hself hself hwin ?_).tolerates
    have hfalse (b : Bool) : decide (b = true ∧ (src = any ∨ src = interrupt)) = false :=
      decide_eq_false fun h => hsome h.2
    refine read_passes hint (hfalse _) (hfalse _) hwin ?_
    exact chooseCode_passes hint hwin hc hblocks

/-! ## The table before and after -/

theorem waitsFor_acts (hg : Acts t h g) (hf : ∀ x, (h x).pFlags &&& sending = x.pFlags &&& sending)
    (hto : ∀ x, (h x).pSendto = x.pSendto) (k : Kernel) : waitsFor (g k) = waitsFor k := by
  funext q
  have hs : ((g k).procTable q).pFlags &&& sending = (k.procTable q).pFlags &&& sending :=
    hg.field (fun x => x.pFlags &&& sending) hf k q
  have hd : ((g k).procTable q).pSendto = (k.procTable q).pSendto := hg.field (·.pSendto) hto k q
  simp only [waitsFor, hs, hd]

theorem waitsFor_pended (t : Slot) (k : Kernel) : waitsFor (pended t k) = waitsFor k :=
  waitsFor_acts (pended_acts t) (fun _ => rfl) (fun _ => rfl) k

theorem waitsFor_awakened (t : Slot) (a : Addr) (k : Kernel) :
    waitsFor (awakened t a k) = waitsFor k := by
  refine waitsFor_acts (awakened_acts t a) (fun x => ?_) (fun _ => rfl) k
  rw [awakenedProc]
  dsimp only
  rw [BitVec.and_assoc, show ~~~receiving &&& sending = sending by decide]

/-- The check passes where the destination does not wait for the sender. -/
theorem deadlock_of_not_reaches (hk : IpcTable k) (hac : Acyclic (waitsFor k))
    (hn : ¬ Reaches (waitsFor k) t s) : deadlock k s t = .ok false := by
  obtain ⟨queue, hq⟩ := hk.queues
  obtain ⟨l, hl⟩ := hac.chain t
  rw [reaches_iff_mem_chain hl] at hn
  exact deadlockLoop_of_not_mem hq.target hl hn (by simpa using hl.length_le)

theorem IpcTable.inform (hk : IpcTable k) (hi : informInt k t = .ok k') : IpcTable k' := by
  obtain ⟨queue, hq⟩ := hk.queues
  have hq' : QueueInv (k.note (.informed t)) queue := hq.congr fun q => ⟨_, rfl⟩
  have ho := informInt_ok hi
  refine ⟨⟨queue, ?_⟩, Plain.inform (k := k.note (.informed t)) hk.plain ho, fun q hq => ?_⟩
  · cases ho with
    | wake ha hf => exact hq'.wake ha hf
    | pend => exact hq'.pend t
  · rw [step_ldts (a := .informInt t) (toOption_eq_some.2 hi)]
    exact hk.base q hq

theorem IpcTable.waitsInt (hk : IpcTable k) (ha : AwaitsInt k t) : WaitsInt (k.procTable t) := by
  obtain ⟨queue, hq⟩ := hk.queues
  obtain ⟨hm, hto, -⟩ := (hq.proc t).receiving ha.1
  exact ⟨(hk.plain t).receiving_iff.1 ha.1, ha.2, hm, hto⟩

/-- Whoever waits for a message has said where to put it. -/
def Awake (k : Kernel) (t : Slot) : Prop := ¬ (Receiving (k.procTable t) ∧ (k.procTable t).pMsg = 0)

theorem QueueInv.awake {queue : Slot → List Slot} (hq : QueueInv k queue) (t : Slot) : Awake k t :=
  fun ht => ((hq.proc t).receiving ht.1).1 ht.2

theorem QueueInv.inform {queue : Slot → List Slot} (hq : QueueInv k queue)
    (hi : informInt k t = .ok k') : QueueInv k' queue := by
  have hq' : QueueInv (k.note (.informed t)) queue := hq.congr fun q => ⟨_, rfl⟩
  cases informInt_ok hi with
  | wake ha hf => exact hq'.wake ha hf
  | pend => exact hq'.pend t

/-! ## A call with an interrupt in it -/

/-- `SEND` by `s` to `t`, or `RECEIVE` by `t` from `src`. -/
inductive IpcCall
  | send (s t : Slot) (m : Addr)
  | receive (t : Slot) (src : Int) (m : Addr)

namespace IpcCall

def caller : IpcCall → Slot
  | send s _ _ => s
  | receive t _ _ => t

/-- The task that interrupts are announced to. -/
def task : IpcCall → Slot
  | send _ t _ => t
  | receive t _ _ => t

def code : IpcCall → IpcCode
  | send s t m => sendCode s t m
  | receive t src m => receiveCode t src m

def act : IpcCall → Act
  | send s t m => .sendrec s .send (proc2pid t) m
  | receive t src m => .sendrec t .receive src m

/-- What `sys_sendrec` asserts of `src_dest`. -/
def Checked : IpcCall → Prop
  | send _ _ _ => True
  | receive _ src _ => (0 ≤ src ∧ src < nrTasks + nrProcs) ∨ src = any ∨ src = interrupt

/-- The places where an interrupt is one too many. -/
def Window (k : Kernel) : IpcCall → Pc → Prop
  | send _ t _ => SendWindow k t
  | receive t src _ => ReceiveWindow k t src

end IpcCall

theorem send_goes (hk : IpcTable k) (hac : Acyclic (waitsFor k)) (hs : (k.procTable s).pFlags = 0) :
    (∃ k', (sendCode s t m).run k = .ok k') ↔ t ≠ s ∧ ¬ Reaches (waitsFor k) t s ∧ m ≠ 0 := by
  constructor
  · rintro ⟨k', hk'⟩
    rw [sendCode_run] at hk'
    obtain ⟨k'', hsend, -⟩ := map_eq_ok.1 hk'
    obtain ⟨d, hd, hne, hdead, -⟩ := msgSend_ok (hk.base.va2la s m) hsend
    obtain rfl := proc2pid_inj hd
    refine ⟨hne, fun hr => not_reaches_of_deadlockLoop hne hdead hr, ?_⟩
    obtain ⟨k₃, hk₃⟩ := msgSend_total (m := m) hk hs hne fun e => by
      rw [deadlock_congr (Kernel.note_procTable k e) (Kernel.note_kReenter k e)]
      exact (deadlock_congr (Kernel.note_procTable k _) (Kernel.note_kReenter k _) s d).symm.trans
        hdead
    rw [hk₃, assert_bind_eq_ok] at hsend
    exact hsend.1
  · rintro ⟨hne, hr, hm⟩
    obtain ⟨k', hk'⟩ := msgSend_total (m := m) hk hs hne fun e => by
      rw [deadlock_congr (Kernel.note_procTable k e) (Kernel.note_kReenter k e)]
      exact deadlock_of_not_reaches hk hac hr
    rw [assert_of hm, ok_bind] at hk'
    exact ⟨_, by rw [sendCode_run, hk']; rfl⟩

theorem receive_goes (hk : IpcTable k) (hp : (k.procTable p).pFlags = 0)
    (hsrc : (0 ≤ src ∧ src < nrTasks + nrProcs) ∨ src = any ∨ src = interrupt) :
    (∃ k', (receiveCode p src m).run k = .ok k') ↔
      ValidSrc p src ∧ m ≠ 0 ∧ ¬ Overlooks k p src := by
  constructor
  · rintro ⟨k', hk'⟩
    rw [receiveCode_run] at hk'
    obtain ⟨k'', hrecv, -⟩ := map_eq_ok.1 hk'
    have hne : proc2pid p ≠ src := by
      rw [msgReceive, assert_bind_eq_ok] at hrecv
      exact hrecv.1
    have hvalid : ValidSrc p src := by
      rcases hsrc with ⟨h0, h1⟩ | h | h
      · refine .inr (.inr ⟨⟨src.toNat, by omega⟩, ?_, ?_⟩)
        · simp only [proc2pid]
          omega
        · rintro rfl
          refine hne ?_
          simp only [proc2pid]
          omega
      · exact .inl h
      · exact .inr (.inl h)
    obtain ⟨hok, hover⟩ := msgReceive_total (m := m) hk hp hvalid
    have hov : ¬ Overlooks k p src := by
      intro ho
      rw [hover ho] at hrecv
      cases hrecv
    obtain ⟨k₃, hk₃⟩ := hok hov
    rw [hk₃, assert_bind_eq_ok] at hrecv
    exact ⟨hvalid, hrecv.1, hov⟩
  · rintro ⟨hvalid, hm, hov⟩
    obtain ⟨k', hk'⟩ := (msgReceive_total (m := m) hk hp hvalid).1 hov
    rw [assert_of hm, ok_bind] at hk'
    exact ⟨_, by rw [receiveCode_run, hk']; rfl⟩

/-- A sender that finds the task woken up queues up. -/
theorem send_queued {src : Addr} (hs : (k.procTable s).pFlags = 0) (hna : ¬ Awaits k t s)
    (hla : va2la k s m = .ok src) (hrun : (sendCode s t m).run k = .ok k') :
    (k'.procTable s).pFlags = sending := by
  rw [sendCode_run] at hrun
  obtain ⟨k'', hsend, rfl⟩ := map_eq_ok.1 hrun
  obtain ⟨d, hd, -, -, ho⟩ := msgSend_ok hla hsend
  obtain rfl := proc2pid_inj hd
  cases ho with
  | handOff dst ha => exact absurd ha hna
  | queueUp last =>
    rw [unnoted_procTable, queueUp_procTable]
    simp [hs]

theorem send_tolerates (hk : IpcTable k) (hac : Acyclic (waitsFor k))
    (hs : (k.procTable s).pFlags = 0) (hrun : (sendCode s t m).run k = .ok k₁) :
    (sendCode s t m).Tolerates (informIntAt t) (AtEnds (sendCode s t m) t k)
      (SendWindow k t) k := by
  obtain ⟨hts, hr, hm⟩ := (send_goes hk hac hs).1 ⟨k₁, hrun⟩
  by_cases ha : AwaitsInt k t
  · have hw := hk.waitsInt ha
    let kw := awakened t (k.procTable t).pMsg k
    have hkw : IpcTable kw := hk.inform (informInt_awakened hw)
    have hacw : Acyclic (waitsFor kw) := by
      rw [waitsFor_awakened]
      exact hac
    have hrw : ¬ Reaches (waitsFor kw) t s := by
      rw [waitsFor_awakened]
      exact hr
    have hsw : (kw.procTable s).pFlags = 0 := by
      rw [(awakened_acts t _).other k hts.symm]
      exact hs
    have hna : ¬ Awaits kw t s := by
      rintro ⟨hrecv, -⟩
      rw [awakened_proc, awakenedProc] at hrecv
      dsimp only at hrecv
      rw [hw.pFlags] at hrecv
      exact hrecv (by decide)
    obtain ⟨k₂, hk₂⟩ := (send_goes hkw hacw hsw).2 ⟨hts, hrw, hm⟩
    exact send_waits hw hts.symm hs (deadlock_of_not_reaches hk hac hr)
      (deadlock_of_not_reaches hkw hacw hrw) hrun hk₂
      (send_queued hsw hna (hkw.base.va2la s m) hk₂)
  · exact send_busy ha hts.symm hrun

theorem receive_tolerates (hk : IpcTable k) (hp : (k.procTable p).pFlags = 0)
    (hsrc : (0 ≤ src ∧ src < nrTasks + nrProcs) ∨ src = any ∨ src = interrupt)
    (hrun : (receiveCode p src m).run k = .ok k₁) :
    (receiveCode p src m).Tolerates (informIntAt p) (AtEnds (receiveCode p src m) p k)
      (ReceiveWindow k p src) k := by
  obtain ⟨hvalid, hm, -⟩ := (receive_goes hk hp hsrc).1 ⟨k₁, hrun⟩
  by_cases hi : TakesInt k p src
  · exact receive_takes hp hi hrun
  have hbefore (hsome : src = any ∨ src = interrupt) :
      ∃ k', (receiveCode p src m).run (pended p k) = .ok k' := by
    have hkp := hk.inform (informInt_pended (busy_of_runs hp))
    have hpp : ((pended p k).procTable p).pFlags = 0 :=
      (field_pended (·.pFlags) (fun _ => rfl) p p k).trans hp
    refine (receive_goes hkp hpp hsrc).2 ⟨hvalid, hm, fun ho => ?_⟩
    obtain ⟨-, s, rfl, -⟩ := ho
    exact hsome.elim (proc2pid_ne_any s) (proc2pid_ne_interrupt s)
  by_cases hfind : Finds k p src
  · obtain ⟨s, prev, hc, hs, -⟩ := chooseSender_eq hk hp hfind
    have hsp : s ≠ p := by
      rintro rfl
      exact not_sending_of_runs hp hs.1
    exact receive_finds hp hi hfind hc hsp hrun fun hany => hbefore (.inl hany)
  · exact receive_blocks (hk.idle hp) hi hfind (chooseSender_eq_none hvalid hfind) hvalid hrun
      hbefore

/-- Neither a call nor an interrupt leaves anybody asleep with nowhere to put a message. -/
theorem IpcCall.queues {queue : Slot → List Slot} {c : IpcCall} (hk : IpcTable k)
    (hq : QueueInv k queue) (hp : (k.procTable c.caller).pFlags = 0)
    (hrun : c.code.run k = .ok k') : ∃ queue', QueueInv k' queue' := by
  cases c with
  | send s t m =>
    rw [IpcCall.code, sendCode_run] at hrun
    obtain ⟨k'', hsend, rfl⟩ := map_eq_ok.1 hrun
    obtain ⟨d, -, -, -, ho⟩ := msgSend_ok (hk.base.va2la s m) hsend
    have hq' (e : Event) : QueueInv (k.note e) queue := hq.congr fun q => ⟨_, rfl⟩
    have hq'' : ∃ queue', QueueInv k'' queue' := by
      cases ho with
      | handOff dst ha _ _ hf _ => exact ⟨queue, (hq' _).handOff ha hf⟩
      | queueUp last _ _ hm hl => exact ⟨_, (hq' _).queueUp hp hm hl⟩
    obtain ⟨queue', hq''⟩ := hq''
    exact ⟨queue', hq''.congr fun q => ⟨_, rfl⟩⟩
  | receive t src m =>
    rw [IpcCall.code, receiveCode_run] at hrun
    obtain ⟨k'', hrecv, rfl⟩ := map_eq_ok.1 hrun
    have hq'' : ∃ queue', QueueInv k'' queue' := by
      cases msgReceive_ok (hk.base.va2la t m) hrecv with
      | takeInterrupt => exact ⟨queue, hq.takeInterrupt t _⟩
      | takeFrom s prev a _ _ _ hf hto hprev =>
        have hst : SendsTo k s t := ⟨by rw [hf]; decide, hto⟩
        obtain ⟨l, r, hl, hl'⟩ := hq.take_split hst hprev
        exact ⟨_, hq.takeFrom _ a hl hl' hf⟩
      | waitFor _ _ _ hsrc hm _ => exact ⟨queue, hq.waitFor hp hsrc hm⟩
    obtain ⟨queue', hq''⟩ := hq''
    exact ⟨queue', hq''.congr fun q => ⟨_, rfl⟩⟩

/-- An interrupt stops nobody. -/
theorem inform_runs {q : Slot} (hi : informInt k t = .ok k') (hq : (k.procTable q).pFlags = 0) :
    (k'.procTable q).pFlags = 0 := by
  cases informInt_ok hi with
  | wake => rcases eq_or_ne q t with rfl | hqt <;> simp [wake, *]
  | pend => rcases eq_or_ne q t with rfl | hqt <;> simp [pend, *]

theorem atEnds_awake {c : IpcCall} (hk : IpcTable k) (hp : (k.procTable c.caller).pFlags = 0)
    (ha : AtEnds c.code c.task k k') : Awake k' c.task := by
  obtain ⟨queue, hq⟩ := hk.queues
  rcases ha with hbefore | hafter
  · obtain ⟨kw, hi, hrun⟩ := bind_eq_ok.1 hbefore
    obtain ⟨queue', hq'⟩ := IpcCall.queues (hk.inform hi) (hq.inform hi) (inform_runs hi hp) hrun
    exact hq'.awake _
  · obtain ⟨k₁, hrun, hi⟩ := bind_eq_ok.1 hafter
    obtain ⟨queue', hq'⟩ := IpcCall.queues hk hq hp hrun
    exact (hq'.inform hi).awake _

/-- What is asked of a call for itself. -/
theorem goes_iff {c : IpcCall} (hk : IpcTable k) (hac : Acyclic (waitsFor k))
    (hp : (k.procTable c.caller).pFlags = 0) (hc : c.Checked) :
    (∃ k', c.code.run k = .ok k') ↔ IpcOp k c.act ∧ Heeds k c.act := by
  cases c with
  | send s t m =>
    refine (send_goes hk hac hp).trans ⟨fun ⟨hts, hr, hm⟩ => ⟨⟨hp, t, rfl, hts, hr⟩, hm⟩, ?_⟩
    rintro ⟨⟨-, d, hd, hds, hr⟩, hm⟩
    obtain rfl := proc2pid_inj hd
    exact ⟨hds, hr, hm⟩
  | receive t src m =>
    refine (receive_goes hk hp hc).trans ⟨fun ⟨hv, hm, ho⟩ => ⟨⟨hp, hv⟩, hm, ho⟩, ?_⟩
    exact fun ⟨⟨_, hv⟩, hm, ho⟩ => ⟨hv, hm, ho⟩

/-- An interrupt before a call does not make it go. -/
theorem goes_of_before {c : IpcCall} (hk : IpcTable k) (hac : Acyclic (waitsFor k))
    (hp : (k.procTable c.caller).pFlags = 0) (hc : c.Checked) (hi : informInt k c.task = .ok k')
    (hrun : c.code.run k' = .ok k₁) : ∃ k', c.code.run k = .ok k' := by
  have hp' := inform_runs hi hp
  have hk' := hk.inform hi
  cases c with
  | send s t m =>
    have hw : waitsFor k' = waitsFor k := by
      by_cases ha : AwaitsInt k t
      · obtain rfl := Except.ok.inj ((informInt_awakened (hk.waitsInt ha)).symm.trans hi)
        exact waitsFor_awakened t _ k
      · obtain rfl := Except.ok.inj ((informInt_pended ha).symm.trans hi)
        exact waitsFor_pended t k
    have hgo := (send_goes hk' (hw ▸ hac) hp').1 ⟨k₁, hrun⟩
    rw [hw] at hgo
    exact (send_goes hk hac hp).2 hgo
  | receive t src m =>
    obtain ⟨hv, hm, ho⟩ := (receive_goes hk' hp' hc).1 ⟨k₁, hrun⟩
    obtain rfl := Except.ok.inj ((informInt_pended (busy_of_runs hp)).symm.trans hi)
    refine (receive_goes hk hp hc).2 ⟨hv, hm, fun hover => ho ?_⟩
    obtain ⟨-, s, hs, hns⟩ := hover
    have hf := field_pended (·.pFlags) (fun _ => rfl) t s k
    have hto := field_pended (·.pSendto) (fun _ => rfl) t s k
    refine ⟨?_, s, hs, fun hst => hns ?_⟩
    · have hself := (pended_acts t).proc k t
      rw [if_pos rfl] at hself
      exact congrArg (·.hasIntMsg) hself
    · exact ⟨hf ▸ hst.1, hto.symm.trans hst.2⟩

/-- In every run, an interrupt that comes at any place of a call leaves it to end as if it had come
before or behind, without a failed assertion or a copy through a null pointer and with the task
awake, just if the call is one that passes its assertions by itself and the place is not one of
these. -/
theorem interrupt_tolerated_iff {l : List Act} {k₀ : Kernel} (hrun : Run AtRest Step l k₀)
    (ht : k.procTable = k₀.procTable) (c : IpcCall) (hp : (k.procTable c.caller).pFlags = 0)
    (hc : c.Checked) (n : ℕ) :
    (∃ k', c.code.runAt (informIntAt c.task) n k = .ok k' ∧
      AtEnds c.code c.task k k' ∧ Awake k' c.task) ↔
      (IpcOp k c.act ∧ Heeds k c.act) ∧ ∀ pc, c.code.pcAt n k = some pc → ¬ c.Window k pc := by
  have hstate := IpcState.of_run hrun
  have hk := hstate.table ht
  have hac : Acyclic (waitsFor k) := by
    rw [waitsFor_congr ht]
    exact hstate.acyclic
  have htol {k₁ : Kernel} (h₁ : c.code.run k = .ok k₁) :
      c.code.Tolerates (informIntAt c.task) (AtEnds c.code c.task k) (c.Window k) k := by
    cases c with
    | send s t m => exact send_tolerates hk hac hp h₁
    | receive t src m => exact receive_tolerates hk hp hc h₁
  rw [← goes_iff hk hac hp hc]
  constructor
  · rintro ⟨k', hk', hends, -⟩
    have hgo : ∃ k', c.code.run k = .ok k' := by
      rcases hends with hbefore | hafter
      · obtain ⟨kw, hi, hw⟩ := bind_eq_ok.1 hbefore
        exact goes_of_before hk hac hp hc hi hw
      · obtain ⟨k₁, h₁, -⟩ := bind_eq_ok.1 hafter
        exact ⟨k₁, h₁⟩
    obtain ⟨k₁, h₁⟩ := hgo
    exact ⟨⟨k₁, h₁⟩, (htol h₁ n).1 ⟨k', hk', hends⟩⟩
  · rintro ⟨⟨k₁, h₁⟩, hpc⟩
    obtain ⟨k', hk', hends⟩ := (htol h₁ n).2 hpc
    exact ⟨k', hk', hends, atEnds_awake hk hp hends⟩

/-- `TTY` waits for anything, and `TestA` sends to it. -/
theorem interrupt_tolerated_iff_waiting : ∃ k,
    Run AtRest Step [.sendrec taskTty .receive any 0x1000] k ∧
      ((∃ k', (sendCode 6 taskTty 0x2000).runAt (informIntAt taskTty) 3 k = .ok k' ∧
        AtEnds (sendCode 6 taskTty 0x2000) taskTty k k' ∧ Awake k' taskTty) ↔
        (IpcOp k (.sendrec 6 .send (proc2pid taskTty) 0x2000) ∧
          Heeds k (.sendrec 6 .send (proc2pid taskTty) 0x2000)) ∧
        ∀ pc, (sendCode 6 taskTty 0x2000).pcAt 3 k = some pc → ¬ SendWindow k taskTty pc) := by
  have hany : (step (kernelMain (fun _ => 0) 0) (.sendrec taskTty .receive any 0x1000)).any
      (fun k => (k.procTable 6).pFlags = 0) = true := by decide
  obtain ⟨k, hk, hp⟩ := (Option.any_eq_true _ _).1 hany
  have hrun : Run AtRest Step [.sendrec taskTty .receive any 0x1000] k :=
    .snoc (.start (.kernelMain _ _)) hk
  exact ⟨k, hrun, interrupt_tolerated_iff hrun rfl (.send 6 taskTty 0x2000) (of_decide_eq_true hp)
    trivial 3⟩

def faultOf {α : Type} : Except Fault α → Option Fault
  | .ok _ => none
  | .error e => some e

theorem of_faultOf_none {α : Type} {x : Except Fault α} (hx : faultOf x = none) :
    ∃ a, x = .ok a := by
  cases x with
  | ok a => exact ⟨a, rfl⟩
  | error e => cases hx

theorem of_faultOf_some {α : Type} {x : Except Fault α} {e : Fault} (hx : faultOf x = some e) :
    x = .error e := by
  cases x with
  | ok a => cases hx
  | error e' => exact congrArg _ (Option.some.inj hx)

/-- An interrupt comes when `TestA` has seen that `TTY` waits. -/
theorem interrupt_in_send : ∃ k, Run AtRest Step [.sendrec taskTty .receive any 0x1000] k ∧
    (k.procTable 6).pFlags = 0 ∧ (∃ k₁, (sendCode 6 taskTty 0x2000).run k = .ok k₁) ∧
      (sendCode 6 taskTty 0x2000).runAt (informIntAt taskTty) 3 k = .error .assertion := by
  have hany : (step (kernelMain (fun _ => 0) 0) (.sendrec taskTty .receive any 0x1000)).any
      (fun k => (k.procTable 6).pFlags = 0 ∧ faultOf ((sendCode 6 taskTty 0x2000).run k) = none ∧
        faultOf ((sendCode 6 taskTty 0x2000).runAt (informIntAt taskTty) 3 k) = some .assertion) =
      true := by decide
  obtain ⟨k, hk, hp⟩ := (Option.any_eq_true _ _).1 hany
  obtain ⟨hp, hgo, hstop⟩ := of_decide_eq_true hp
  exact ⟨k, .snoc (.start (.kernelMain _ _)) hk, hp, of_faultOf_none hgo, of_faultOf_some hstop⟩

end MyOS
