import Mathlib.Algebra.Order.BigOperators.Group.Finset
import MyOS.Lib.Ranking
import MyOS.Proofs.Asserts
import MyOS.Proofs.Servers
import MyOS.TaskSys

/-!
# Every call to the system task comes back

A request is with the process that made it, on its way to `task_sys`, with `task_sys` or on its way
back. `task_sys` has one at a time, and the process it is for waits for nothing else, so that the
answer goes to that process and is what it returns.
-/

namespace MyOS

open Memory Pointer

variable {l : SysLayout} {s s' : SysServer} {p q t u : Slot} {r : SysRequest} {m a : Addr}
  {h h' : Option (Slot × SysRequest)} {S : Slot → Prop} {k k' : Kernel}

section Waits

variable {d src : Int}

theorem Waits.toSend_ne_nothing : Waits.toSend d a ≠ .nothing := by
  intro h
  cases h

theorem Waits.toReceive_ne_nothing : Waits.toReceive src a ≠ .nothing := by
  intro h
  cases h

theorem Waits.nothing_ne_toSend (m : Addr) : Waits.nothing ≠ .toSend d m :=
  toSend_ne_nothing.symm

theorem Waits.nothing_ne_toReceive (m : Addr) : Waits.nothing ≠ .toReceive src m :=
  toReceive_ne_nothing.symm

theorem Waits.toSend_ne_toReceive (m : Addr) : Waits.toSend d a ≠ .toReceive src m := by
  intro h
  cases h

theorem Waits.toReceive_ne_toSend (m : Addr) : Waits.toReceive src a ≠ .toSend d m :=
  (toSend_ne_toReceive a).symm

end Waits

/-! ## What a trap leaves alone -/

/-- Who waits for a process is not woken by an interrupt. -/
theorem informInt_waits (hs : informInt k t = .ok k') :
    k'.waits t = k.waits t ∨
      ∃ a, k.waits t = .toReceive interrupt a ∨ k.waits t = .toReceive any a := by
  have ho := informInt_ok hs
  generalize hk : k.note (.informed t) = k₀ at ho
  have htab : k₀.procTable = k.procTable := by rw [← hk]; rfl
  cases ho with
  | wake ha hf =>
    have hw : k.waits t = _ := (congrFun (waits_of_table htab) t).symm.trans
      (waits_of_receiving ha.1 hf)
    refine .inr ⟨(k₀.procTable t).pMsg, ?_⟩
    rcases ha.2 with hsrc | hsrc <;> rw [hsrc] at hw
    · exact .inl hw
    · exact .inr hw
  | pend =>
    rw [← waits_of_table htab]
    exact .inl (congrFun (pend_waits k₀) t)

/-- Who asks a process for a message gets no interrupt. -/
theorem receive_moves {src : Int} (hp : (k.procTable p).pFlags = 0) (hany : src ≠ any)
    (hint : src ≠ interrupt) (hs : sendrec k p .receive src m = .ok k') : k'.waits ≠ k.waits := by
  obtain ⟨la, k₁, hla, ho, rfl⟩ := sendrec_ok hs
  cases ho with
  | receive srcDest k₁ ho =>
    generalize hk : stamp (save k) p la = k₀ at ho
    have htab : k₀.procTable = k.procTable := by rw [← hk]; rfl
    rw [← waits_of_table htab]
    intro hsame
    cases ho with
    | takeInterrupt _ hsrc => exact hsrc.elim hany hint
    | takeFrom c prev b _ _ _ hf =>
      have hc : k₀.waits c = .nothing := by
        rw [← hsame]
        exact (takeFrom_waits k₀ hf prev la b c).trans (if_pos rfl)
      rw [waits_eq_nothing, hf] at hc
      exact absurd hc (by decide)
    | waitFor =>
      have hwait : k₀.waits p = .toReceive src m := by
        rw [← hsame]
        exact (waitFor_waits k₀ src p).trans (if_pos rfl)
      rw [waits_eq_nothing.2 (htab ▸ hp)] at hwait
      cases hwait

/-- Who is not blocked sending leads to nobody else. -/
theorem not_reaches_of_not_sending (hp : ¬ Sending (k.procTable p)) (hpq : p ≠ q) :
    ¬ Reaches (waitsFor k) p q := by
  intro hreach
  obtain ⟨c, hc, -⟩ := (Relation.ReflTransGen.cases_head_iff.1 hreach).resolve_left hpq
  exact hp (waitsFor_eq_some.1 hc).1

/-! ## Where a request is -/

def SysServer.status (s : SysServer) (p : Slot) : Calls.Status SysRequest (BitVec 32) :=
  Calls.status sysAnswer (proc2pid p) s.log

/-- A request of `u`, as it reaches `task_sys`. -/
structure IsSysRequest (msg : Message) (u : Slot) (r : SysRequest) : Prop where
  source : msg.source = BitVec.ofInt 32 (proc2pid u)
  type : msg.type = r.type.code

/-- An answer with the result `v`, whoever it is from. -/
def IsSysReply (msg : Message) (r : SysRequest) (v : BitVec 32) : Prop :=
  SysServer.returned msg r = some v

theorem IsSysReply.setSource {msg : Message} {v : BitVec 32} (hm : IsSysReply msg r v)
    (source : BitVec 32) : IsSysReply { msg with source } r v := by
  cases r <;> exact hm

/-- The message of a call under way. -/
def CallPlace.msg : CallPlace → Option Addr
  | .home => none
  | .send m _ => some m
  | .receive m _ => some m
  | .back m _ => some m

/-- What `task_sys` is about: which request it has. -/
inductive SysIn (l : SysLayout) (s : SysServer) : Option (Slot × SysRequest) → Prop
  | receive : s.kernel.waits taskSys = .nothing → s.place = .receive → SysIn l s none
  | waiting : s.kernel.waits taskSys = .toReceive any l.msg → s.place = .received → SysIn l s none
  | request (u : Slot) (r : SysRequest) : s.kernel.waits taskSys = .nothing →
    s.place = .received → IsSysRequest (s.kernel.msgAt taskSys l.msg) u r →
    s.status u = .called r → SysIn l s (some (u, r))
  | reply (u : Slot) (r : SysRequest) (v : BitVec 32) : s.kernel.waits taskSys = .nothing →
    s.place = .reply (proc2pid u) → IsSysReply (s.kernel.msgAt taskSys l.msg) r v →
    s.status u = .served v → SysIn l s (some (u, r))
  | replying (u : Slot) (r : SysRequest) (v : BitVec 32) :
    s.kernel.waits taskSys = .toSend (proc2pid u) l.msg → s.place = .receive →
    IsSysReply (s.kernel.msgAt taskSys l.msg) r v → s.status u = .served v →
    SysIn l s (some (u, r))

/-- Where a process is with its call, while `task_sys` has the request `h`. -/
inductive CallIn (s : SysServer) (h : Option (Slot × SysRequest)) (p : Slot) : Prop
  | home : s.calls p = .home → s.status p = .idle → (∀ r, h ≠ some (p, r)) →
    (∀ m, s.kernel.waits p ≠ .toSend (proc2pid taskSys) m) →
    (∀ m, s.kernel.waits p ≠ .toReceive (proc2pid taskSys) m) → CallIn s h p
  | send (m : Addr) (r : SysRequest) : s.calls p = .send m r → s.status p = .called r →
    (∀ r, h ≠ some (p, r)) → s.kernel.waits p = .nothing →
    (s.kernel.msgAt p m).type = r.type.code → CallIn s h p
  | queued (m : Addr) (r : SysRequest) : s.calls p = .receive m r → s.status p = .called r →
    (∀ r, h ≠ some (p, r)) → s.kernel.waits p = .toSend (proc2pid taskSys) m →
    IsSysRequest (s.kernel.msgAt p m) p r → CallIn s h p
  | sent (m : Addr) (r : SysRequest) : s.calls p = .receive m r → h = some (p, r) →
    s.kernel.waits p = .nothing → CallIn s h p
  | waiting (m : Addr) (r : SysRequest) : s.calls p = .back m r → h = some (p, r) →
    s.kernel.waits p = .toReceive (proc2pid taskSys) m → CallIn s h p
  | back (m : Addr) (r : SysRequest) (v : BitVec 32) : s.calls p = .back m r →
    s.status p = .served v → (∀ r, h ≠ some (p, r)) → s.kernel.waits p = .nothing →
    IsSysReply (s.kernel.msgAt p m) r v → CallIn s h p

/-- The process is blocked, with its message at `m`. -/
def BlockedWith (k : Kernel) (p : Slot) (m : Addr) : Prop :=
  (∃ d, k.waits p = .toSend d m) ∨ ∃ src, k.waits p = .toReceive src m

/-- A caller, and its message. -/
structure IsCall (l : SysLayout) (k : Kernel) (p : Slot) (m : Addr) : Prop where
  ne : p ≠ taskSys
  msg_ne : m ≠ 0
  owns : OwnsMsg l.owner p (k.la p m)

structure SysInv (l : SysLayout) (s : SysServer) (h : Option (Slot × SysRequest)) : Prop where
  ipc : IpcState s.kernel
  int : (s.kernel.procTable taskSys).hasIntMsg = false
  owns : ∀ p m, BlockedWith s.kernel p m → OwnsMsg l.owner p (s.kernel.la p m)
  calls : ∀ p m, (s.calls p).msg = some m → IsCall l s.kernel p m
  legal : Calls.Legal sysAnswer s.log
  server : SysIn l s h
  others : ∀ u r, h = some (u, r) → u ≠ taskSys
  clients : ∀ p, p ≠ taskSys → CallIn s h p

theorem none_ne_some {p : Slot} (r : SysRequest) : none ≠ some (p, r) :=
  (Option.some_ne_none _).symm

theorem CallPlace.ne_home {place : CallPlace} (h : place.msg = some m) : place ≠ .home := by
  rintro rfl
  cases h

/-! ## What is left to do -/

/-- It is part of a call that has been made. -/
def SysAct.OfCall : SysAct → Prop
  | .sys => True
  | .send _ => True
  | .receive _ => True
  | .ret _ => True
  | _ => False

def CallStep (l : SysLayout) (s : SysServer) (act : SysAct) (s' : SysServer) : Prop :=
  act.OfCall ∧ SysStep l s act s'

/-- No interrupt is pending for a caller: where it waits for `task_sys` then, `msg_receive` stops
the kernel. -/
def Undisturbed (s : SysServer) : Prop :=
  ∀ p, s.calls p ≠ .home → (s.kernel.procTable p).hasIntMsg = false

/-- For `task_sys`: with a request it answers and replies, and receives again. -/
def SysServer.serverWork (s : SysServer) : ℕ :=
  match s.place with
  | .receive => if s.kernel.waits taskSys = .nothing then 1 else 2
  | .received => if s.kernel.waits taskSys = .nothing then 4 else 0
  | .reply _ => 3

/-- For a call: it is worth more than the request it turns into. -/
def SysServer.callWork (s : SysServer) (p : Slot) : ℕ :=
  match s.calls p with
  | .home => 0
  | .send _ _ => 11
  | .receive _ _ => if s.kernel.waits p = .nothing then 4 else 10
  | .back _ _ => if s.kernel.waits p = .nothing then 1 else 3

def SysServer.work (s : SysServer) : ℕ := s.serverWork + ∑ p, s.callWork p

theorem serverWork_congr (hp : s'.place = s.place)
    (hw : s'.kernel.waits taskSys = s.kernel.waits taskSys) : s'.serverWork = s.serverWork := by
  unfold SysServer.serverWork
  rw [hp, hw]

/-- Less is left where there is less for `task_sys` and one call. -/
theorem work_lt (hsys : s.calls taskSys = .home)
    (hw : ∀ q, q ≠ p → q ≠ taskSys → s'.kernel.waits q = s.kernel.waits q)
    (hcalls : ∀ q, q ≠ p → s'.calls q = s.calls q)
    (hlt : s'.serverWork + s'.callWork p < s.serverWork + s.callWork p) : s'.work < s.work := by
  have hsum := Ranking.sum_add_of_ne (i := p) (f := s'.callWork) (g := s.callWork) fun q hq => by
    unfold SysServer.callWork
    rcases eq_or_ne q taskSys with rfl | hqs
    · rw [hcalls _ hq, hsys]
    · rw [hcalls q hq, hw q hq hqs]
  unfold SysServer.work
  omega

/-! ## What stays -/

theorem SysIn.frame (hi : SysIn l s h) (hw : s'.kernel.waits taskSys = s.kernel.waits taskSys)
    (hp : s'.place = s.place)
    (hm : s'.kernel.msgAt taskSys l.msg = s.kernel.msgAt taskSys l.msg)
    (hs : ∀ u r, h = some (u, r) → s'.status u = s.status u) : SysIn l s' h := by
  cases hi with
  | receive h1 h2 => exact .receive (hw.trans h1) (hp.trans h2)
  | waiting h1 h2 => exact .waiting (hw.trans h1) (hp.trans h2)
  | request u r h1 h2 h3 h4 =>
    exact .request u r (hw.trans h1) (hp.trans h2) (by rwa [hm]) ((hs u r rfl).trans h4)
  | reply u r v h1 h2 h3 h4 =>
    exact .reply u r v (hw.trans h1) (hp.trans h2) (by rwa [hm]) ((hs u r rfl).trans h4)
  | replying u r v h1 h2 h3 h4 =>
    exact .replying u r v (hw.trans h1) (hp.trans h2) (by rwa [hm]) ((hs u r rfl).trans h4)

theorem SysIn.idle (hs : SysIn l s h) (hp : s.place = .receive)
    (hw : s.kernel.waits taskSys = .nothing) : h = none := by
  cases hs with
  | receive => rfl
  | waiting hw' => cases hw.symm.trans hw'
  | request u r _ hp' => cases hp.symm.trans hp'
  | reply u r v _ hp' => cases hp.symm.trans hp'
  | replying u r v hw' => cases hw.symm.trans hw'

theorem CallIn.frame (hc : CallIn s h p) (hw : s'.kernel.waits p = s.kernel.waits p)
    (hp : s'.calls p = s.calls p) (hs : s'.status p = s.status p)
    (hm : ∀ m, (s.calls p).msg = some m → s'.kernel.msgAt p m = s.kernel.msgAt p m)
    (hh : ∀ r, h' = some (p, r) ↔ h = some (p, r)) : CallIn s' h' p := by
  have hn (hn : ∀ r, h ≠ some (p, r)) : ∀ r, h' ≠ some (p, r) := fun r hr => hn r ((hh r).1 hr)
  cases hc with
  | home h1 h2 h3 h4 h5 =>
    exact .home (hp.trans h1) (hs.trans h2) (hn h3) (by rwa [hw]) (by rwa [hw])
  | send m r h1 h2 h3 h4 h5 =>
    exact .send m r (hp.trans h1) (hs.trans h2) (hn h3) (hw.trans h4)
      (by rwa [hm m (by rw [h1]; rfl)])
  | queued m r h1 h2 h3 h4 h5 =>
    exact .queued m r (hp.trans h1) (hs.trans h2) (hn h3) (hw.trans h4)
      (by rwa [hm m (by rw [h1]; rfl)])
  | sent m r h1 h2 h3 => exact .sent m r (hp.trans h1) ((hh r).2 h2) (hw.trans h3)
  | waiting m r h1 h2 h3 => exact .waiting m r (hp.trans h1) ((hh r).2 h2) (hw.trans h3)
  | back m r v h1 h2 h3 h4 h5 =>
    exact .back m r v (hp.trans h1) (hs.trans h2) (hn h3) (hw.trans h4)
      (by rwa [hm m (by rw [h1]; rfl)])

/-- A step of the kernel that changes the memory of those of `S` only. -/
structure SysChange (l : SysLayout) (k k' : Kernel) (S : Slot → Prop) : Prop where
  step : ∃ a, Step k a k'
  rest : ∃ t, t ≠ taskSys ∧ SameRest t k k'
  mem : MemOf l.owner S k.mem k'.mem

theorem SysChange.la (hc : SysChange l k k' S) (p : Slot) (a : Addr) : k'.la p a = k.la p a := by
  obtain ⟨t, -, hrest⟩ := hc.rest
  exact hrest.la p a

/-- A write of some of `S` to memory. -/
theorem SysChange.user {mem : Mem} (hm : MemOf l.owner S k.mem mem) :
    SysChange l k { k with mem } S :=
  ⟨⟨.user mem, rfl⟩, ⟨taskTty, by decide, fun _ => rfl, fun _ _ hq => hq⟩, hm⟩

theorem CallIn.at_home (hc : CallIn s h p) (hp : s.calls p = .home) :
    s.status p = .idle ∧ (∀ r, h ≠ some (p, r)) ∧
      (∀ m, s.kernel.waits p ≠ .toSend (proc2pid taskSys) m) ∧
        ∀ m, s.kernel.waits p ≠ .toReceive (proc2pid taskSys) m := by
  cases hc with
  | home _ h2 h3 h4 h5 => exact ⟨h2, h3, h4, h5⟩
  | _ => simp_all

/-- A process that waits for another one than `task_sys` makes no call. -/
theorem CallIn.home_of_waits (hc : CallIn s h p) (hn : s.kernel.waits p ≠ .nothing)
    (hs : ∀ m, s.kernel.waits p ≠ .toSend (proc2pid taskSys) m)
    (hr : ∀ m, s.kernel.waits p ≠ .toReceive (proc2pid taskSys) m) : s.calls p = .home := by
  cases hc with
  | home h1 => exact h1
  | send m r _ _ _ h4 => exact absurd h4 hn
  | queued m r _ _ _ h4 => exact absurd h4 (hs m)
  | sent m r _ _ h3 => exact absurd h3 hn
  | waiting m r _ _ h3 => exact absurd h3 (hr m)
  | back m r v _ _ _ h4 => exact absurd h4 hn

theorem BlockedWith.of_woken (hw : ∀ q, k'.waits q = if q = u then .nothing else k.waits q)
    (hb : BlockedWith k' p m) : BlockedWith k p m := by
  unfold BlockedWith at *
  rw [hw] at hb
  split_ifs at hb with hp
  · rcases hb with ⟨d, hb⟩ | ⟨d, hb⟩ <;> cases hb
  · exact hb

theorem BlockedWith.of_blocked {w : Waits}
    (hw : ∀ q, k'.waits q = if q = u then w else k.waits q)
    (ha : (∃ d, w = .toSend d a) ∨ ∃ src, w = .toReceive src a) (hb : BlockedWith k' p m) :
    BlockedWith k p m ∨ p = u ∧ m = a := by
  unfold BlockedWith at *
  rw [hw] at hb
  split_ifs at hb with hp
  · refine .inr ⟨hp, ?_⟩
    rcases ha with ⟨d, rfl⟩ | ⟨d, rfl⟩ <;> rcases hb with ⟨e, hb⟩ | ⟨e, hb⟩ <;> cases hb <;> rfl
  · exact .inl hb

namespace SysInv

theorem sys_home (hi : SysInv l s h) : s.calls taskSys = .home := by
  cases hcall : s.calls taskSys with
  | home => rfl
  | _ => exact absurd rfl (hi.calls taskSys _ (by rw [hcall]; rfl)).ne

theorem msg_owns (hi : SysInv l s h) : OwnsMsg l.owner taskSys (s.kernel.la taskSys l.msg) := by
  rw [NativeBase.la hi.ipc.base (by decide)]
  exact l.msg_owns

/-- The clients that a step leaves alone. -/
theorem client_frame (hi : SysInv l s h) (hc : SysChange l s.kernel s'.kernel S)
    (hp : p ≠ taskSys) (hS : S p → s.calls p = .home)
    (hw : s'.kernel.waits p = s.kernel.waits p) (hcalls : s'.calls p = s.calls p)
    (hs : s'.status p = s.status p) (hh : ∀ r, h' = some (p, r) ↔ h = some (p, r)) :
    CallIn s' h' p := by
  refine (hi.clients p hp).frame hw hcalls hs (fun m hm => ?_) hh
  refine msgAt_of_mem hc.mem (hc.la p m) (hi.calls p m hm).owns fun hSp => ?_
  rw [hS hSp] at hm
  cases hm

theorem server_frame (hi : SysInv l s h) (hc : SysChange l s.kernel s'.kernel S)
    (hS : ¬ S taskSys) (hw : s'.kernel.waits taskSys = s.kernel.waits taskSys)
    (hp : s'.place = s.place) (hs : ∀ u r, h = some (u, r) → s'.status u = s.status u) :
    SysIn l s' h :=
  hi.server.frame hw hp (msgAt_of_mem hc.mem (hc.la _ _) hi.msg_owns hS) hs

theorem change (hi : SysInv l s h) (hc : SysChange l s.kernel s'.kernel S)
    (howns : ∀ p m, BlockedWith s'.kernel p m →
      BlockedWith s.kernel p m ∨ OwnsMsg l.owner p (s.kernel.la p m))
    (hcalls : ∀ p m, (s'.calls p).msg = some m →
      (s.calls p).msg = some m ∨ IsCall l s.kernel p m)
    (hlegal : Calls.Legal sysAnswer s'.log) (hserver : SysIn l s' h')
    (hothers : ∀ u r, h' = some (u, r) → u ≠ taskSys)
    (hclients : ∀ p, p ≠ taskSys → CallIn s' h' p) : SysInv l s' h' := by
  obtain ⟨a, hstep⟩ := hc.step
  obtain ⟨t, ht, hrest⟩ := hc.rest
  refine ⟨hi.ipc.step hstep, hrest.hasIntMsg _ ht.symm hi.int, fun p m hm => ?_,
    fun p m hm => ?_, hlegal, hserver, hothers, hclients⟩
  · rw [hc.la]
    exact (howns p m hm).elim (hi.owns p m) id
  · obtain ⟨hne, hm0, hown⟩ := (hcalls p m hm).elim (hi.calls p m) id
    exact ⟨hne, hm0, by rwa [hc.la]⟩

/-! ## Processes that make no call -/

/-- A step of processes that make no call, and go on to make none. -/
theorem home_change (hi : SysInv l s h) (hc : SysChange l s.kernel k S)
    (hS : ∀ q, S q → q ≠ taskSys ∧ s.calls q = .home)
    (howns : ∀ p m, BlockedWith k p m →
      BlockedWith s.kernel p m ∨ OwnsMsg l.owner p (s.kernel.la p m))
    (hw : ∀ q, k.waits q = s.kernel.waits q ∨ q ≠ taskSys ∧ s.calls q = .home ∧
      (∀ m, k.waits q ≠ .toSend (proc2pid taskSys) m) ∧
        ∀ m, k.waits q ≠ .toReceive (proc2pid taskSys) m) :
    SysInv l { s with kernel := k } h := by
  refine hi.change hc howns (fun _ _ hm => .inl hm) hi.legal ?_ hi.others fun q hq => ?_
  · refine hi.server_frame hc (fun hsys => (hS _ hsys).1 rfl) ?_ rfl fun _ _ _ => rfl
    exact (hw taskSys).resolve_right fun hsys => hsys.1 rfl
  · rcases hw q with hsame | ⟨-, hhome, hsend, hreceive⟩
    · exact hi.client_frame hc hq (fun hSq => (hS q hSq).2) hsame rfl rfl fun _ => Iff.rfl
    · obtain ⟨hidle, hh, -, -⟩ := (hi.clients q hq).at_home hhome
      exact .home hhome hidle hh hsend hreceive

theorem inform_step (hi : SysInv l s h) (ht : t ≠ taskSys) (hlt : t.val < nrTasks)
    (hs : informInt s.kernel t = .ok k) : SysInv l { s with kernel := k } h := by
  have hnative : t.val < nrTasks + nrNativeProcs := Nat.lt_of_lt_of_le hlt (Nat.le_add_right _ _)
  have hstep : Step s.kernel (.informInt t) k := congrArg Except.toOption hs
  obtain ⟨hseen, hrest⟩ := inform_seen l.owner (fun src a hw => by
    rw [← NativeBase.la hi.ipc.base hnative a]
    exact hi.owns t a (.inr ⟨src, hw⟩)) hs
  cases hseen with
  | woken src a hwt hw' htype hmem =>
    have hhome : s.calls t = .home := by
      have hwoken : k.waits t = .nothing := (hw' t).trans (if_pos rfl)
      rcases informInt_waits hs with hsame | ⟨b, hint | hany⟩
      · rw [hwoken, hwt] at hsame
        cases hsame
      · refine (hi.clients t ht).home_of_waits ?_ ?_ ?_ <;>
          simp [hint, (proc2pid_ne_interrupt taskSys).symm]
      · refine (hi.clients t ht).home_of_waits ?_ ?_ ?_ <;>
          simp [hany, (proc2pid_ne_any taskSys).symm]
    refine hi.home_change ⟨⟨_, hstep⟩, ⟨t, ht, hrest⟩, hmem⟩ (fun q hq => ?_)
      (fun _ _ hb => .inl (hb.of_woken hw')) fun q => ?_
    · obtain rfl : q = t := hq
      exact ⟨ht, hhome⟩
    · rcases eq_or_ne q t with rfl | hqt
      · rw [hw', if_pos rfl]
        exact .inr ⟨ht, hhome, Waits.nothing_ne_toSend, Waits.nothing_ne_toReceive⟩
      · exact .inl ((hw' q).trans (if_neg hqt))
  | pending hw' hmem =>
    have hc : SysChange l s.kernel k (fun _ => False) :=
      ⟨⟨_, hstep⟩, ⟨t, ht, hrest⟩, fun x _ => congrFun hmem x⟩
    refine hi.home_change hc (fun _ => False.elim) (fun p m hb => .inl ?_) fun q => .inl
      (congrFun hw' q)
    unfold BlockedWith at *
    rwa [hw'] at hb

theorem trap_step {function : Function} {srcDest : Int} (hi : SysInv l s h) (hp : s.AtHome p)
    (hd : srcDest ≠ proc2pid taskSys) (hown : OwnsMsg l.owner p (s.kernel.la p m))
    (hs : sendrec s.kernel p function srcDest m = .ok k) : SysInv l { s with kernel := k } h := by
  obtain ⟨hpsys, hrun, hhome⟩ := hp
  have hstep : Step s.kernel (.sendrec p function srcDest m) k := by
    simp only [Step, step, if_pos hrun, hs]
    rfl
  have hw := waits_eq_nothing.2 hrun
  have hfun : (function = .send ∧ ∃ d, srcDest = proc2pid d) ∨ function = .receive := by
    obtain ⟨la, k₁, -, ho, -⟩ := sendrec_ok hs
    cases ho with
    | send d => exact .inl ⟨rfl, d, rfl⟩
    | receive => exact .inr rfl
  rcases hfun with ⟨rfl, d, rfl⟩ | rfl
  · have hdsys : d ≠ taskSys := fun he => hd (by rw [he])
    obtain ⟨hseen, hrest⟩ := send_seen (t := taskTty) hrun hown
      (fun src a hwd => hi.owns d a (.inr ⟨src, hwd⟩)) hs
    cases hseen with
    | handed src a hwd hsrc hw' hmsg hmem =>
      have hdhome : s.calls d = .home := by
        refine (hi.clients d hdsys).home_of_waits ?_ ?_ ?_ <;> rw [hwd]
        · exact Waits.toReceive_ne_nothing
        · exact Waits.toReceive_ne_toSend
        · intro m hm
          rw [(Waits.toReceive.inj hm).1] at hsrc
          rcases hsrc with hsrc | hsrc
          · exact hpsys (proc2pid_inj hsrc).symm
          · exact absurd hsrc (by decide)
      refine hi.home_change ⟨⟨_, hstep⟩, ⟨taskTty, by decide, hrest⟩, hmem⟩ ?_
        (fun _ _ hb => .inl (hb.of_woken hw')) fun q => ?_
      · rintro q (rfl | rfl)
        · exact ⟨hpsys, hhome⟩
        · exact ⟨hdsys, hdhome⟩
      · rcases eq_or_ne q d with rfl | hqd
        · rw [hw', if_pos rfl]
          exact .inr ⟨hdsys, hdhome, Waits.nothing_ne_toSend, Waits.nothing_ne_toReceive⟩
        · exact .inl ((hw' q).trans (if_neg hqd))
    | queued hno hw' hmsg hmem =>
      refine hi.home_change ⟨⟨_, hstep⟩, ⟨taskTty, by decide, hrest⟩, hmem⟩ ?_ (fun q b hb => ?_)
        fun q => ?_
      · rintro q rfl
        exact ⟨hpsys, hhome⟩
      · refine (hb.of_blocked hw' (.inl ⟨_, rfl⟩)).imp_right ?_
        rintro ⟨rfl, rfl⟩
        exact hown
      · rcases eq_or_ne q p with rfl | hqp
        · rw [hw', if_pos rfl]
          exact .inr ⟨hpsys, hhome, fun m hm => hd (Waits.toSend.inj hm).1,
            Waits.toSend_ne_toReceive⟩
        · exact .inl ((hw' q).trans (if_neg hqp))
  · obtain ⟨hseen, hmem, hrest⟩ := receive_seen (t := taskTty) hrun hown
      (fun c d a hwc => hi.owns c a (.inl ⟨d, hwc⟩)) hs
    have hc : SysChange l s.kernel k (· = p) :=
      ⟨⟨_, hstep⟩, ⟨taskTty, by decide, hrest⟩, hmem⟩
    have hS : ∀ q, q = p → q ≠ taskSys ∧ s.calls q = .home := by
      rintro q rfl
      exact ⟨hpsys, hhome⟩
    cases hseen with
    | interrupt _ hw' _ =>
      refine hi.home_change hc hS (fun q b hb => .inl ?_) fun q => .inl (congrFun hw' q)
      unfold BlockedWith at *
      rwa [hw'] at hb
    | took c a hwc hsel hcp hw' hmsg =>
      have hcsys : c ≠ taskSys := by
        rintro rfl
        obtain ⟨-, hh, -, -⟩ := (hi.clients p hpsys).at_home hhome
        have hserver := hi.server
        cases hserver with
        | replying u r v hwu =>
          rw [hwu] at hwc
          obtain rfl : u = p := proc2pid_inj (Waits.toSend.inj hwc).1
          exact hh r rfl
        | _ => simp_all
      have hchome : s.calls c = .home := by
        refine (hi.clients c hcsys).home_of_waits ?_ ?_ ?_ <;> rw [hwc]
        · exact Waits.toSend_ne_nothing
        · exact fun m hm => hpsys (proc2pid_inj (Waits.toSend.inj hm).1)
        · exact Waits.toSend_ne_toReceive
      refine hi.home_change hc hS (fun _ _ hb => .inl (hb.of_woken hw')) fun q => ?_
      rcases eq_or_ne q c with rfl | hqc
      · rw [hw', if_pos rfl]
        exact .inr ⟨hcsys, hchome, Waits.nothing_ne_toSend, Waits.nothing_ne_toReceive⟩
      · exact .inl ((hw' q).trans (if_neg hqc))
    | waits _ hw' =>
      refine hi.home_change hc hS (fun q b hb => ?_) fun q => ?_
      · refine (hb.of_blocked hw' (.inr ⟨_, rfl⟩)).imp_right ?_
        rintro ⟨rfl, rfl⟩
        exact hown
      · rcases eq_or_ne q p with rfl | hqp
        · rw [hw', if_pos rfl]
          exact .inr ⟨hpsys, hhome, Waits.toReceive_ne_toSend,
            fun m hm => hd (Waits.toReceive.inj hm).1⟩
        · exact .inl ((hw' q).trans (if_neg hqp))

theorem write_step (hi : SysInv l s h) (hp : s.AtHome p) (ha : l.owner a = p) (v : Byte) :
    SysInv l { s with kernel := { s.kernel with mem := Function.update s.kernel.mem a v } } h := by
  obtain ⟨hpsys, -, hhome⟩ := hp
  have hmem : MemOf l.owner (· = p) s.kernel.mem (Function.update s.kernel.mem a v) :=
    fun x hx => Function.update_of_ne (fun he => hx (by rw [he, ha])) _ _
  refine hi.home_change (.user hmem) ?_ (fun _ _ hb => .inl hb) fun _ => .inl rfl
  rintro q rfl
  exact ⟨hpsys, hhome⟩

theorem clock_step (hi : SysInv l s h) (ticks : Int) : SysInv l { s with ticks } h := by
  have hc : SysChange l s.kernel s.kernel (fun _ => False) := .user (.refl _)
  refine hi.change hc (fun _ _ hb => .inl hb) (fun _ _ hm => .inl hm) hi.legal
    (hi.server_frame hc id rfl rfl fun _ _ _ => rfl) hi.others
    fun q hq => hi.client_frame hc hq False.elim rfl rfl rfl fun _ => Iff.rfl

/-! ## Calls -/

theorem status_cons {e : SysEvent} (s s' : SysServer) (he : e.caller = proc2pid p) (hqp : q ≠ p)
    (hlog : s'.log = e :: s.log) : s'.status q = s.status q := by
  unfold SysServer.status
  rw [hlog]
  exact Calls.status_of_ne fun hq => hqp (proc2pid_inj (hq.symm.trans he))

/-- The processes beside `p`. -/
theorem clients_frame (hi : SysInv l s h) (hc : SysChange l s.kernel s'.kernel S)
    (hS : ∀ q, S q → q = p ∨ q = taskSys)
    (hw : ∀ q, q ≠ p → q ≠ taskSys → s'.kernel.waits q = s.kernel.waits q)
    (hcalls : ∀ q, q ≠ p → s'.calls q = s.calls q)
    (hs : ∀ q, q ≠ p → s'.status q = s.status q)
    (hh : ∀ q, q ≠ p → ∀ r, h' = some (q, r) ↔ h = some (q, r)) (hp : CallIn s' h' p) (q : Slot)
    (hq : q ≠ taskSys) : CallIn s' h' q := by
  rcases eq_or_ne q p with rfl | hqp
  · exact hp
  · exact hi.client_frame hc hq (fun hSq => absurd (hS q hSq) (not_or.2 ⟨hqp, hq⟩)) (hw q hqp hq)
      (hcalls q hqp) (hs q hqp) (hh q hqp)

theorem msg_update {calls : Slot → CallPlace} {place : CallPlace}
    (hm : (Function.update calls p place q).msg = some m) :
    (calls q).msg = some m ∨ q = p ∧ place.msg = some m := by
  rw [Function.update_apply] at hm
  split_ifs at hm with hqp
  · exact .inr ⟨hqp, hm⟩
  · exact .inl hm

theorem call_step (hi : SysInv l s h) (hp : s.AtHome p) (hm0 : m ≠ 0)
    (hown : OwnsMsg l.owner p (s.kernel.la p m)) :
    SysInv l { (s.setMsg (s.kernel.la p m)
      (SysServer.fillRequest (s.kernel.msgAt p m) r)).goCall p (.send m r) with
        log := .call (proc2pid p) r :: s.log } h := by
  obtain ⟨hpsys, hrun, hhome⟩ := hp
  obtain ⟨hidle, hh, -, -⟩ := (hi.clients p hpsys).at_home hhome
  have hmem : MemOf l.owner (· = p) s.kernel.mem (Message.store s.kernel.mem (s.kernel.la p m)
      (SysServer.fillRequest (s.kernel.msgAt p m) r)) := .store (S := (· = p)) hown rfl _
  have hc := SysChange.user (l := l) (k := s.kernel) hmem
  have hstat {q : Slot} (hqp : q ≠ p) := status_cons s { (s.setMsg (s.kernel.la p m)
      (SysServer.fillRequest (s.kernel.msgAt p m) r)).goCall p (.send m r) with
        log := .call (proc2pid p) r :: s.log } rfl hqp rfl
  have hother {q : Slot} (hqp : q ≠ p) : Function.update s.calls p (.send m r) q = s.calls q :=
    Function.update_of_ne hqp _ _
  refine hi.change hc (fun _ _ hb => .inl hb) (fun q b hm => ?_) ⟨hidle, hi.legal⟩ ?_ hi.others ?_
  · refine (msg_update hm).imp_right ?_
    rintro ⟨rfl, ⟨⟩⟩
    exact ⟨hpsys, hm0, hown⟩
  · refine hi.server_frame hc hpsys.symm rfl rfl fun u r' hu => hstat ?_
    rintro rfl
    exact hh r' hu
  · refine hi.clients_frame hc (fun _ => .inl) (fun _ _ _ => rfl) (fun _ => hother)
      (fun _ => hstat) (fun _ _ _ => Iff.rfl) ?_
    refine .send m r (Function.update_self _ _ _) Calls.status_call hh
      (waits_eq_nothing.2 hrun) ?_
    refine (congrArg Message.type (Message.load_store _ _ _)).trans ?_
    cases r <;> rfl

theorem send_step (hi : SysInv l s h) (hp : p ≠ taskSys) (hcall : s.calls p = .send m r)
    (hrun : (s.kernel.procTable p).pFlags = 0)
    (hs : sendrec s.kernel p .send (proc2pid taskSys) m = .ok k) :
    ∃ h', SysInv l ({ s with kernel := k }.goCall p (.receive m r)) h' ∧
      ({ s with kernel := k }.goCall p (.receive m r)).work < s.work := by
  have hstep : Step s.kernel (.sendrec p .send (proc2pid taskSys) m) k := by
    simp only [Step, step, if_pos hrun, hs]
    rfl
  have hcaller := hi.calls p m (by rw [hcall]; rfl)
  have hclient := hi.clients p hp
  obtain ⟨hcalled, hh, htype⟩ : s.status p = .called r ∧ (∀ r, h ≠ some (p, r)) ∧
      (s.kernel.msgAt p m).type = r.type.code := by
    cases hclient <;> simp_all
  have hother {q : Slot} (hqp : q ≠ p) : Function.update s.calls p (.receive m r) q = s.calls q :=
    Function.update_of_ne hqp _ _
  have hmsg' {q : Slot} {b : Addr}
      (hm : (Function.update s.calls p (.receive m r) q).msg = some b) :
      (s.calls q).msg = some b ∨ IsCall l s.kernel q b := by
    refine (msg_update hm).imp_right ?_
    rintro ⟨rfl, ⟨⟩⟩
    exact hcaller
  obtain ⟨hseen, hrest⟩ := send_seen (t := taskTty) hrun hcaller.owns
    (fun src a hw => hi.owns taskSys a (.inr ⟨src, hw⟩)) hs
  cases hseen with
  | handed src a hwt hsrc hw' hmsg hmem =>
    have hc : SysChange l s.kernel k (fun q => q = p ∨ q = taskSys) :=
      ⟨⟨_, hstep⟩, ⟨taskTty, by decide, hrest⟩, hmem⟩
    have hserver := hi.server
    cases hserver with
    | waiting hwait hplace =>
      obtain ⟨-, rfl⟩ : any = src ∧ l.msg = a := by simpa [hwait] using hwt
      refine ⟨some (p, r), hi.change hc (fun _ _ hb => .inl (hb.of_woken hw')) (fun _ _ => hmsg')
        hi.legal (.request p r ((hw' taskSys).trans (if_pos rfl)) hplace ?_ hcalled) ?_
        (hi.clients_frame hc (fun _ => id) (fun q _ hq => (hw' q).trans (if_neg hq))
          (fun _ => hother) (fun _ _ => rfl) (fun q hqp r' => ?_)
          (.sent m r (Function.update_self _ _ _) rfl ?_)),
        work_lt hi.sys_home (fun q _ hq => (hw' q).trans (if_neg hq)) (fun _ => hother) ?_⟩
      · exact (show _ = _ from hmsg) ▸ ⟨rfl, htype⟩
      · rintro u r' ⟨⟩
        exact hp
      · exact iff_of_false (fun he => hqp (Prod.mk.inj (Option.some.inj he)).1.symm)
          (none_ne_some r')
      · exact ((hw' p).trans (if_neg hp)).trans (waits_eq_nothing.2 hrun)
      · simp [SysServer.serverWork, SysServer.callWork, SysServer.goCall, hplace, hcall, hwait,
          hw', hp, waits_eq_nothing.2 hrun]
    | _ => simp_all
  | queued hno hw' hmsg hmem =>
    have hc : SysChange l s.kernel k (· = p) :=
      ⟨⟨_, hstep⟩, ⟨taskTty, by decide, hrest⟩, hmem⟩
    refine ⟨h, hi.change hc (fun q b hb => ?_) (fun _ _ => hmsg') hi.legal
      (hi.server_frame hc hp.symm ((hw' taskSys).trans (if_neg hp.symm)) rfl fun _ _ _ => rfl)
      hi.others (hi.clients_frame hc (fun _ => .inl) (fun q hqp _ => (hw' q).trans (if_neg hqp))
        (fun _ => hother) (fun _ _ => rfl) (fun _ _ _ => Iff.rfl)
        (.queued m r (Function.update_self _ _ _) hcalled hh ((hw' p).trans (if_pos rfl)) ?_)),
      work_lt hi.sys_home (fun q hqp _ => (hw' q).trans (if_neg hqp)) (fun _ => hother) ?_⟩
    · refine (hb.of_blocked hw' (.inl ⟨_, rfl⟩)).imp_right ?_
      rintro ⟨rfl, rfl⟩
      exact hcaller.owns
    · exact (show _ = _ from hmsg) ▸ ⟨rfl, htype⟩
    · refine Nat.add_lt_add_of_le_of_lt (le_of_eq ?_) ?_
      · exact serverWork_congr rfl ((hw' taskSys).trans (if_neg hp.symm))
      · simp [SysServer.callWork, SysServer.goCall, hcall, hw']

theorem receive_step (hi : SysInv l s h) (hp : p ≠ taskSys) (hcall : s.calls p = .receive m r)
    (hrun : (s.kernel.procTable p).pFlags = 0)
    (hs : sendrec s.kernel p .receive (proc2pid taskSys) m = .ok k) :
    ∃ h', SysInv l ({ s with kernel := k }.goCall p (.back m r)) h' ∧
      ({ s with kernel := k }.goCall p (.back m r)).work < s.work := by
  have hstep : Step s.kernel (.sendrec p .receive (proc2pid taskSys) m) k := by
    simp only [Step, step, if_pos hrun, hs]
    rfl
  have hw := waits_eq_nothing.2 hrun
  have hcaller := hi.calls p m (by rw [hcall]; rfl)
  have hclient := hi.clients p hp
  obtain rfl : h = some (p, r) := by
    cases hclient <;> simp_all
  have hother {q : Slot} (hqp : q ≠ p) : Function.update s.calls p (.back m r) q = s.calls q :=
    Function.update_of_ne hqp _ _
  have hmsg' {q : Slot} {b : Addr} (hm : (Function.update s.calls p (.back m r) q).msg = some b) :
      (s.calls q).msg = some b ∨ IsCall l s.kernel q b := by
    refine (msg_update hm).imp_right ?_
    rintro ⟨rfl, ⟨⟩⟩
    exact hcaller
  obtain ⟨hseen, hmem, hrest⟩ := receive_seen (t := taskTty) hrun hcaller.owns
    (fun c d a hwc => hi.owns c a (.inl ⟨d, hwc⟩)) hs
  have hc : SysChange l s.kernel k (· = p) := ⟨⟨_, hstep⟩, ⟨taskTty, by decide, hrest⟩, hmem⟩
  cases hseen with
  | interrupt _ hw' _ =>
    exact absurd hw' (receive_moves hrun (proc2pid_ne_any _) (proc2pid_ne_interrupt _) hs)
  | took c a hwc hsel hcp hw' hmsg =>
    obtain rfl : taskSys = c := proc2pid_inj (hsel.resolve_left (proc2pid_ne_any _))
    have hserver := hi.server
    cases hserver with
    | replying _ _ v hwu hplace hreply hserved =>
      obtain rfl : l.msg = a := by simpa [hwu] using hwc
      refine ⟨none, hi.change hc (fun _ _ hb => .inl (hb.of_woken hw')) (fun _ _ => hmsg')
        hi.legal (.receive ((hw' taskSys).trans (if_pos rfl)) hplace)
          (fun _ r h => absurd h (none_ne_some r))
        (hi.clients_frame hc (fun _ => .inl) (fun q _ hq => (hw' q).trans (if_neg hq))
          (fun _ => hother) (fun _ _ => rfl) (fun q hqp r' => ?_)
          (.back m r v (Function.update_self _ _ _) hserved none_ne_some ?_ ?_)),
        work_lt hi.sys_home (fun q _ hq => (hw' q).trans (if_neg hq)) (fun _ => hother) ?_⟩
      · exact iff_of_false (none_ne_some r') fun he => hqp (Prod.mk.inj (Option.some.inj he)).1.symm
      · exact ((hw' p).trans (if_neg hp)).trans hw
      · exact (show _ = _ from hmsg) ▸ hreply
      · simp [SysServer.serverWork, SysServer.callWork, SysServer.goCall, hplace, hcall, hwu, hw',
          hp, hw]
    | _ => simp_all
  | waits _ hw' =>
    refine ⟨some (p, r), hi.change hc (fun q b hb => ?_) (fun _ _ => hmsg') hi.legal
      (hi.server_frame hc hp.symm ((hw' taskSys).trans (if_neg hp.symm)) rfl fun _ _ _ => rfl)
      hi.others (hi.clients_frame hc (fun _ => .inl) (fun q hqp _ => (hw' q).trans (if_neg hqp))
        (fun _ => hother) (fun _ _ => rfl) (fun _ _ _ => Iff.rfl)
        (.waiting m r (Function.update_self _ _ _) rfl ((hw' p).trans (if_pos rfl)))),
      work_lt hi.sys_home (fun q hqp _ => (hw' q).trans (if_neg hqp)) (fun _ => hother) ?_⟩
    · refine (hb.of_blocked hw' (.inr ⟨_, rfl⟩)).imp_right ?_
      rintro ⟨rfl, rfl⟩
      exact hcaller.owns
    · refine Nat.add_lt_add_of_le_of_lt (le_of_eq ?_) ?_
      · exact serverWork_congr rfl ((hw' taskSys).trans (if_neg hp.symm))
      · simp [SysServer.callWork, SysServer.goCall, hcall, hw', hw]

theorem ret_step {v : BitVec 32} (hi : SysInv l s h) (hp : p ≠ taskSys)
    (hcall : s.calls p = .back m r) (hrun : (s.kernel.procTable p).pFlags = 0)
    (hv : SysServer.returned (s.kernel.msgAt p m) r = some v) :
    SysInv l { s.goCall p .home with log := .ret (proc2pid p) v :: s.log } h ∧
      SysServer.work { s.goCall p .home with log := .ret (proc2pid p) v :: s.log } < s.work := by
  have hw := waits_eq_nothing.2 hrun
  have hclient := hi.clients p hp
  obtain ⟨hserved, hh⟩ : s.status p = .served v ∧ ∀ r, h ≠ some (p, r) := by
    cases hclient with
    | back m' r' v' h1 h2 h3 h4 h5 =>
      obtain ⟨rfl, rfl⟩ := CallPlace.back.inj (h1.symm.trans hcall)
      rw [show v = v' from Option.some.inj (hv.symm.trans h5)]
      exact ⟨h2, h3⟩
    | _ => simp_all
  have hc : SysChange l s.kernel s.kernel (fun _ => False) := .user (.refl _)
  have hstat {q : Slot} (hqp : q ≠ p) := status_cons s
    { s.goCall p .home with log := .ret (proc2pid p) v :: s.log } rfl hqp rfl
  refine ⟨hi.change hc (fun _ _ hb => .inl hb) (fun q b hm => ?_) ⟨hserved, hi.legal⟩ ?_ hi.others
    ?_, work_lt hi.sys_home (fun _ _ _ => rfl) (fun q hqp => Function.update_of_ne hqp _ _) ?_⟩
  · refine (msg_update hm).imp_right ?_
    rintro ⟨-, ⟨⟩⟩
  · refine hi.server_frame hc id rfl rfl fun u r' hu => hstat ?_
    rintro rfl
    exact hh r' hu
  · refine hi.clients_frame hc (fun _ => False.elim) (fun _ _ _ => rfl)
      (fun q hqp => Function.update_of_ne hqp _ _) (fun _ => hstat) (fun _ _ _ => Iff.rfl) ?_
    refine .home (Function.update_self _ _ _) Calls.status_ret hh (fun b hb => ?_) fun b hb => ?_
    · cases hw.symm.trans hb
    · cases hw.symm.trans hb
  · refine Nat.add_lt_add_of_le_of_lt (serverWork_congr rfl rfl).le ?_
    simp [SysServer.callWork, SysServer.goCall, hcall, hw]

/-! ## The system task -/

/-- `task_sys` writes its message. -/
theorem SysChange.msg (hi : SysInv l s h) (msg : Message) :
    SysChange l s.kernel (s.setMsg (s.kernel.la taskSys l.msg) msg).kernel (· = taskSys) :=
  .user (.store (S := (· = taskSys)) hi.msg_owns rfl msg)

theorem reset_step (hi : SysInv l s h) (hplace : s.place = .receive)
    (hrun : (s.kernel.procTable taskSys).pFlags = 0) (msg : Message) :
    SysInv l (s.setMsg (s.kernel.la taskSys l.msg) msg) none := by
  have hw := waits_eq_nothing.2 hrun
  obtain rfl := hi.server.idle hplace hw
  have hc := SysChange.msg hi msg
  refine hi.change hc (fun _ _ hb => .inl hb) (fun _ _ hm => .inl hm) hi.legal (.receive hw hplace)
    hi.others fun q hq => hi.client_frame hc hq (fun he => absurd he hq) rfl rfl rfl fun _ =>
      Iff.rfl

theorem sys_receive (hi : SysInv l s none) (hplace : s.place = .receive)
    (hrun : (s.kernel.procTable taskSys).pFlags = 0)
    (hs : sendrec s.kernel taskSys .receive any l.msg = .ok k) :
    ∃ h', SysInv l { s with kernel := k, place := .received } h' ∧
      SysServer.work { s with kernel := k, place := .received } < s.work := by
  have hstep : Step s.kernel (.sendrec taskSys .receive any l.msg) k := by
    simp only [Step, step, if_pos hrun, hs]
    rfl
  have hw := waits_eq_nothing.2 hrun
  obtain ⟨hseen, hmem, hrest⟩ := receive_seen (t := taskTty) hrun hi.msg_owns
    (fun c d a hwc => hi.owns c a (.inl ⟨d, hwc⟩)) hs
  have hc : SysChange l s.kernel k (· = taskSys) := ⟨⟨_, hstep⟩, ⟨taskTty, by decide, hrest⟩, hmem⟩
  cases hseen with
  | interrupt hint _ _ =>
    rw [hi.int] at hint
    cases hint
  | took c a hwc _ hcp hw' hmsg =>
    have hclient := hi.clients c hcp
    cases hclient with
    | queued m r h1 h2 h3 h4 h5 =>
      obtain rfl : a = m := by simpa [h4] using hwc.symm
      refine ⟨some (c, r), hi.change hc (fun _ _ hb => .inl (hb.of_woken hw')) (fun _ _ => .inl)
        hi.legal (.request c r ((hw' taskSys).trans ((if_neg hcp.symm).trans hw)) rfl ?_ h2) ?_
        (hi.clients_frame hc (fun _ => .inr) (fun q hqc _ => (hw' q).trans (if_neg hqc))
          (fun _ _ => rfl) (fun _ _ => rfl) (fun q hqc r' => ?_)
          (.sent a r h1 rfl ((hw' c).trans (if_pos rfl)))),
        work_lt hi.sys_home (fun q hqc _ => (hw' q).trans (if_neg hqc)) (fun _ _ => rfl) ?_⟩
      · exact (show _ = _ from hmsg) ▸ h5
      · rintro u r' ⟨⟩
        exact hcp
      · exact iff_of_false (fun he => hqc (Prod.mk.inj (Option.some.inj he)).1.symm)
          (none_ne_some r')
      · simp [SysServer.serverWork, SysServer.callWork, hplace, h1, h4, hw', hcp.symm, hw]
    | home _ _ _ h4 => exact absurd hwc (h4 a)
    | send _ _ _ _ _ h4 => cases h4.symm.trans hwc
    | sent _ _ _ _ h3 => cases h3.symm.trans hwc
    | waiting _ _ _ _ h3 => cases h3.symm.trans hwc
    | back _ _ _ _ _ _ h4 => cases h4.symm.trans hwc
  | waits _ hw' =>
    refine ⟨none, hi.change hc (fun q b hb => ?_) (fun _ _ => .inl) hi.legal
      (.waiting ((hw' taskSys).trans (if_pos rfl)) rfl) hi.others fun q hq =>
        hi.client_frame hc hq (fun he => absurd he hq) ((hw' q).trans (if_neg hq)) rfl rfl
          fun _ => Iff.rfl,
      work_lt hi.sys_home (fun q _ hq => (hw' q).trans (if_neg hq)) (fun _ _ => rfl) (p := taskSys)
        ?_⟩
    · refine (hb.of_blocked hw' (.inr ⟨_, rfl⟩)).imp_right ?_
      rintro ⟨rfl, rfl⟩
      exact hi.msg_owns
    · simp [SysServer.serverWork, SysServer.callWork, hplace, hi.sys_home, hw', hw]

/-- `task_sys` has the answer to `u` in its message. -/
def answered (l : SysLayout) (s : SysServer) (u : Slot) (msg : Message) : SysServer :=
  { s with place := .reply (proc2pid u), log := .serve (proc2pid u) s.ticks :: s.log }.setMsg
    (s.kernel.la taskSys l.msg) msg

theorem answered_msgAt (u : Slot) (msg : Message) :
    (answered l s u msg).kernel.msgAt taskSys l.msg = msg :=
  Message.load_store _ _ _

theorem sysDispatch_eq (hm : IsSysRequest (s.kernel.msgAt taskSys l.msg) u r) :
    ∃ msg, IsSysReply msg r (sysAnswer s.ticks (proc2pid u) r) ∧
      s.sysDispatch l = some (answered l s u msg) := by
  have hsrc : (s.kernel.msgAt taskSys l.msg).source.toInt = proc2pid u := by
    rw [hm.source, toInt_proc2pid]
  have htype := hm.type
  unfold SysServer.sysDispatch
  dsimp only
  rw [hsrc]
  cases r with
  | getTicks =>
    refine ⟨_, ?_, if_pos htype⟩
    rfl
  | getPid =>
    refine ⟨_, ?_, (if_neg ?_).trans (if_pos htype)⟩
    · rfl
    · rw [htype]
      decide

theorem dispatch_step (hi : SysInv l s h) (hplace : s.place = .received)
    (hrun : (s.kernel.procTable taskSys).pFlags = 0) (hs : s.sysDispatch l = some s') :
    SysInv l s' h ∧ s'.work < s.work := by
  have hw := waits_eq_nothing.2 hrun
  have hserver := hi.server
  cases hserver with
  | request u r _ _ hmsg hcalled =>
    have hu := hi.others u r rfl
    obtain ⟨msg, hreply, hs'⟩ := sysDispatch_eq hmsg
    obtain rfl : s' = answered l s u msg := Option.some.inj (hs.symm.trans hs')
    have hc : SysChange l s.kernel (answered l s u msg).kernel (· = taskSys) :=
      SysChange.msg hi msg
    have hstat {q : Slot} (hqu : q ≠ u) :=
      status_cons s (answered l s u msg) rfl hqu rfl
    refine ⟨hi.change hc (fun _ _ hb => .inl hb) (fun _ _ hm => .inl hm) ⟨⟨r, hcalled⟩, hi.legal⟩
      (.reply u r _ hw rfl ?_ (Calls.status_serve hcalled)) hi.others
      (hi.clients_frame hc (fun _ => .inr) (fun _ _ _ => rfl) (fun _ _ => rfl) (fun _ => hstat)
        (fun _ _ _ => Iff.rfl) ?_),
      work_lt hi.sys_home (fun _ _ _ => rfl) (fun _ _ => rfl) (p := taskSys) ?_⟩
    · rwa [answered_msgAt]
    · have hclient := hi.clients u hu
      cases hclient with
      | sent m r' h1 h2 h3 => exact .sent m r' h1 h2 h3
      | waiting m r' h1 h2 h3 => exact .waiting m r' h1 h2 h3
      | home _ _ h3 => exact absurd rfl (h3 r)
      | send _ _ _ _ h3 => exact absurd rfl (h3 r)
      | queued _ _ _ _ h3 => exact absurd rfl (h3 r)
      | back _ _ _ _ _ h3 => exact absurd rfl (h3 r)
    · simp [SysServer.serverWork, SysServer.callWork, answered, SysServer.setMsg, hplace,
        hi.sys_home, hw]
  | waiting hw' => cases hw.symm.trans hw'
  | receive _ hp' => cases hplace.symm.trans hp'
  | reply _ _ _ _ hp' => cases hplace.symm.trans hp'
  | replying _ _ _ _ hp' => cases hplace.symm.trans hp'

theorem reply_step {src : Int} (hi : SysInv l s h) (hplace : s.place = .reply src)
    (hrun : (s.kernel.procTable taskSys).pFlags = 0)
    (hs : sendrec s.kernel taskSys .send src l.msg = .ok k) :
    ∃ h', SysInv l { s with kernel := k, place := .receive } h' ∧
      SysServer.work { s with kernel := k, place := .receive } < s.work := by
  have hstep : Step s.kernel (.sendrec taskSys .send src l.msg) k := by
    simp only [Step, step, if_pos hrun, hs]
    rfl
  have hw := waits_eq_nothing.2 hrun
  have hserver := hi.server
  cases hserver with
  | reply u r v _ hplace' hreply hserved =>
    have hu := hi.others u r rfl
    obtain rfl : src = proc2pid u := SysPlace.reply.inj (hplace.symm.trans hplace')
    have hclient := hi.clients u hu
    obtain ⟨hseen, hrest⟩ := send_seen (t := taskTty) hrun hi.msg_owns
      (fun src a hw => hi.owns u a (.inr ⟨src, hw⟩)) hs
    cases hseen with
    | handed src a hwu hsrc hw' hmsg hmem =>
      have hc : SysChange l s.kernel k (fun q => q = taskSys ∨ q = u) :=
        ⟨⟨_, hstep⟩, ⟨taskTty, by decide, hrest⟩, hmem⟩
      cases hclient with
      | waiting m r' h1 h2 h3 =>
        obtain ⟨-, rfl⟩ : _ ∧ m = a := by simpa [h3] using hwu
        obtain rfl : r = r' := (Prod.mk.inj (Option.some.inj h2)).2
        refine ⟨none, hi.change hc (fun _ _ hb => .inl (hb.of_woken hw')) (fun _ _ => .inl)
          hi.legal (.receive ((hw' taskSys).trans ((if_neg hu.symm).trans hw)) rfl)
            (fun _ r h => absurd h (none_ne_some r))
          (hi.clients_frame hc (fun _ => Or.symm) (fun q hqu _ => (hw' q).trans (if_neg hqu))
            (fun _ _ => rfl) (fun _ _ => rfl) (fun q hqu r' => ?_)
            (.back m r v h1 hserved none_ne_some ((hw' u).trans (if_pos rfl)) ?_)),
          work_lt hi.sys_home (fun q hqu _ => (hw' q).trans (if_neg hqu)) (fun _ _ => rfl) ?_⟩
        · exact iff_of_false (none_ne_some r') fun he => hqu
            (Prod.mk.inj (Option.some.inj he)).1.symm
        · exact (show _ = _ from hmsg) ▸ hreply.setSource _
        · simp [SysServer.serverWork, SysServer.callWork, hplace, h1, h3, hw', hu.symm, hw]
      | sent _ _ _ _ h3 => cases h3.symm.trans hwu
      | home _ _ h3 => exact absurd rfl (h3 r)
      | send _ _ _ _ h3 => exact absurd rfl (h3 r)
      | queued _ _ _ _ h3 => exact absurd rfl (h3 r)
      | back _ _ _ _ _ h3 => exact absurd rfl (h3 r)
    | queued _ hw' hmsg hmem =>
      have hc : SysChange l s.kernel k (· = taskSys) :=
        ⟨⟨_, hstep⟩, ⟨taskTty, by decide, hrest⟩, hmem⟩
      refine ⟨some (u, r), hi.change hc (fun q b hb => ?_) (fun _ _ => .inl) hi.legal
        (.replying u r v ((hw' taskSys).trans (if_pos rfl)) rfl ?_ hserved) hi.others fun q hq =>
          hi.client_frame hc hq (fun he => absurd he hq) ((hw' q).trans (if_neg hq)) rfl rfl
            fun _ => Iff.rfl,
        work_lt hi.sys_home (fun q _ hq => (hw' q).trans (if_neg hq)) (fun _ _ => rfl)
          (p := taskSys) ?_⟩
      · refine (hb.of_blocked hw' (.inl ⟨_, rfl⟩)).imp_right ?_
        rintro ⟨rfl, rfl⟩
        exact hi.msg_owns
      · exact (show _ = _ from hmsg) ▸ hreply.setSource _
      · simp [SysServer.serverWork, SysServer.callWork, hplace, hi.sys_home, hw']
  | replying _ _ _ hw' => cases hw.symm.trans hw'
  | waiting hw' => cases hw.symm.trans hw'
  | receive _ hp' => cases hplace.symm.trans hp'
  | request _ _ _ hp' => cases hplace.symm.trans hp'

/-! ## Runs -/

theorem step {act : SysAct} (hi : SysInv l s h) (hs : SysStep l s act s') :
    ∃ h', SysInv l s' h' ∧ (act.OfCall → s'.work < s.work) := by
  cases act with
  | sys =>
    obtain ⟨hrun, hs⟩ : (s.kernel.procTable taskSys).pFlags = 0 ∧ s.taskSysStep l = some s' := by
      simpa [SysStep, sysStep] using hs
    unfold SysServer.taskSysStep at hs
    split at hs
    · next hplace =>
      obtain ⟨k, hk, rfl⟩ := Option.map_eq_some_iff.1 hs
      obtain ⟨h', hi', hlt⟩ :=
        sys_receive (hi.reset_step hplace hrun _) hplace hrun (toOption_eq_some.1 hk)
      exact ⟨h', hi', fun _ => hlt⟩
    · next hplace =>
      obtain ⟨hi', hlt⟩ := hi.dispatch_step hplace hrun hs
      exact ⟨h, hi', fun _ => hlt⟩
    · next src hplace =>
      obtain ⟨k, hk, rfl⟩ := Option.map_eq_some_iff.1 hs
      obtain ⟨h', hi', hlt⟩ := hi.reply_step hplace hrun (toOption_eq_some.1 hk)
      exact ⟨h', hi', fun _ => hlt⟩
  | clock =>
    obtain rfl := Option.some.inj hs
    exact ⟨h, hi.clock_step _, fun h => False.elim h⟩
  | informInt t =>
    obtain ⟨⟨ht, hlt⟩, hs⟩ := Option.ite_none_right_eq_some.1 hs
    obtain ⟨k, hk, rfl⟩ := Option.map_eq_some_iff.1 hs
    exact ⟨h, hi.inform_step ht hlt (toOption_eq_some.1 hk), fun h => False.elim h⟩
  | call p m r =>
    obtain ⟨⟨hp, hm0, hown⟩, hs⟩ := Option.ite_none_right_eq_some.1 hs
    obtain rfl := Option.some.inj hs
    exact ⟨h, hi.call_step hp hm0 hown, fun h => False.elim h⟩
  | send p =>
    simp only [SysStep, sysStep] at hs
    split at hs
    · next m r hcall =>
      obtain ⟨k, hk, rfl⟩ := Option.map_eq_some_iff.1 hs
      obtain ⟨hrun, hk⟩ := Option.ite_none_right_eq_some.1 hk
      have hp := (hi.calls p m (by rw [hcall]; rfl)).ne
      obtain ⟨h', hi', hlt⟩ := hi.send_step hp hcall hrun (toOption_eq_some.1 hk)
      exact ⟨h', hi', fun _ => hlt⟩
    · cases hs
  | receive p =>
    simp only [SysStep, sysStep] at hs
    split at hs
    · next m r hcall =>
      obtain ⟨k, hk, rfl⟩ := Option.map_eq_some_iff.1 hs
      obtain ⟨hrun, hk⟩ := Option.ite_none_right_eq_some.1 hk
      have hp := (hi.calls p m (by rw [hcall]; rfl)).ne
      obtain ⟨h', hi', hlt⟩ := hi.receive_step hp hcall hrun (toOption_eq_some.1 hk)
      exact ⟨h', hi', fun _ => hlt⟩
    · cases hs
  | ret p =>
    simp only [SysStep, sysStep] at hs
    split at hs
    · next m r hcall =>
      obtain ⟨hrun, hs⟩ := Option.ite_none_right_eq_some.1 hs
      obtain ⟨v, hv, rfl⟩ := Option.map_eq_some_iff.1 hs
      have hp := (hi.calls p m (by rw [hcall]; rfl)).ne
      obtain ⟨hi', hlt⟩ := hi.ret_step hp hcall hrun hv
      exact ⟨h, hi', fun _ => hlt⟩
    · cases hs
  | trap p function srcDest m =>
    obtain ⟨⟨hp, hd, hown⟩, hs⟩ := Option.ite_none_right_eq_some.1 hs
    obtain ⟨k, hk, rfl⟩ := Option.map_eq_some_iff.1 hs
    obtain ⟨-, hk⟩ := Option.ite_none_right_eq_some.1 hk
    exact ⟨h, hi.trap_step hp hd hown (toOption_eq_some.1 hk), fun h => False.elim h⟩
  | write p a v =>
    obtain ⟨⟨hp, ha⟩, hs⟩ := Option.ite_none_right_eq_some.1 hs
    obtain rfl := Option.some.inj hs
    exact ⟨h, hi.write_step hp ha v, fun h => False.elim h⟩

theorem start (hs : SysStart s) : SysInv l s none := by
  obtain ⟨k, ticks, hk, rfl⟩ := hs
  have hidle (p : Slot) : (k.procTable p).pFlags = freeSlot ∨ Idle (k.procTable p) :=
    (hk.proc p).imp_right fun h => ⟨h.1, h.2.1, h.2.2.1, h.2.2.2⟩
  have hwaits (p : Slot) : k.waits p = .nothing ∨ k.waits p = .other := by
    rcases hidle p with hf | hf
    · have hs : ¬ Sending (k.procTable p) := by
        rw [Sending, hf]
        decide
      have hr : ¬ Receiving (k.procTable p) := by
        rw [Receiving, hf]
        decide
      unfold Kernel.waits Proc.waits
      rw [if_neg (by rw [hf]; decide), if_neg hs, if_neg hr]
      exact .inr rfl
    · exact .inl (waits_eq_nothing.2 hf.pFlags)
  refine ⟨AtRest.ipcState ⟨hk.kReenter, hk.native, fun p => (hk.queues p).1,
    fun p => (hk.queues p).2.1, hidle⟩, (hk.queues _).2.2, fun p m hb => ?_, fun p m hm => ?_,
    trivial, .receive (waits_eq_nothing.2 (hk.tasks taskSys (by decide))) rfl,
      fun _ r h => absurd h (none_ne_some r), fun p _ => ?_⟩
  · rcases hb with ⟨d, hb⟩ | ⟨d, hb⟩ <;> rcases hwaits p with hw | hw <;> cases hw.symm.trans hb
  · cases hm
  · refine .home rfl rfl none_ne_some (fun m hb => ?_) fun m hb => ?_
    · rcases hwaits p with hw | hw <;> cases hw.symm.trans hb
    · rcases hwaits p with hw | hw <;> cases hw.symm.trans hb

theorem of_run {tr : List SysAct} (hr : Run SysStart (SysStep l) tr s) : ∃ h, SysInv l s h :=
  hr.invariant (P := fun _ s => ∃ h, SysInv l s h) (fun _ hs => ⟨none, start hs⟩)
    fun _ _ _ _ ⟨_, hi⟩ hs => (hi.step hs).imp fun _ => And.left

/-! ## A call under way goes on -/

/-- Whom `task_sys` is about waits for no receiver. -/
theorem not_sending (hi : SysInv l s (some (u, r))) : ¬ Sending (s.kernel.procTable u) := by
  intro hs
  have hw := waits_eq_toSend.2 ⟨hs, rfl, rfl⟩
  have hclient := hi.clients u (hi.others u r rfl)
  cases hclient with
  | sent _ _ _ _ h3 => cases h3.symm.trans hw
  | waiting _ _ _ _ h3 => cases h3.symm.trans hw
  | home _ _ h3 => exact h3 r rfl
  | send _ _ _ _ h3 => exact h3 r rfl
  | queued _ _ _ _ h3 => exact h3 r rfl
  | back _ _ _ _ _ h3 => exact h3 r rfl

theorem can_send (hi : SysInv l s h) (hcall : s.calls p = .send m r)
    (hw : s.kernel.waits p = .nothing) (hh : ∀ r, h ≠ some (p, r)) :
    ∃ s', SysStep l s (.send p) s' := by
  have hcaller := hi.calls p m (by rw [hcall]; rfl)
  have hrun := waits_eq_nothing.1 hw
  have hfree : ¬ Reaches (waitsFor s.kernel) taskSys p := by
    intro hreach
    obtain ⟨c, hc, hrest⟩ := (Relation.ReflTransGen.cases_head_iff.1 hreach).resolve_left
      hcaller.ne.symm
    obtain ⟨m', hwc⟩ := sendsTo_iff.1 (waitsFor_eq_some.1 hc)
    have hserver := hi.server
    cases hserver with
    | replying u r' v hwu =>
      rw [hwu] at hwc
      obtain rfl : u = c := proc2pid_inj (Waits.toSend.inj hwc).1
      refine not_reaches_of_not_sending hi.not_sending ?_ hrest
      rintro rfl
      exact hh r' rfl
    | receive hw' => cases hw'.symm.trans hwc
    | waiting hw' => cases hw'.symm.trans hwc
    | request _ _ hw' => cases hw'.symm.trans hwc
    | reply _ _ _ hw' => cases hw'.symm.trans hwc
  have hop : IpcOp s.kernel (.sendrec p .send (proc2pid taskSys) m) :=
    ⟨hrun, taskSys, rfl, hcaller.ne.symm, hfree⟩
  obtain ⟨k, hk⟩ := (sendrec_total hi.ipc hop).1 hcaller.msg_ne
  refine ⟨{ s with kernel := k }.goCall p (.receive m r), ?_⟩
  simp only [SysStep, sysStep, hcall, MyOS.step, if_pos hrun, hk]
  rfl

theorem can_receive (hi : SysInv l s h) (hcall : s.calls p = .receive m r)
    (hw : s.kernel.waits p = .nothing) (hint : (s.kernel.procTable p).hasIntMsg = false) :
    ∃ s', SysStep l s (.receive p) s' := by
  have hcaller := hi.calls p m (by rw [hcall]; rfl)
  have hrun := waits_eq_nothing.1 hw
  have hop : IpcOp s.kernel (.sendrec p .receive (proc2pid taskSys) m) :=
    ⟨hrun, .inr (.inr ⟨taskSys, rfl, hcaller.ne.symm⟩)⟩
  have hheeds : ¬ Overlooks s.kernel p (proc2pid taskSys) := fun ho => by
    rw [Overlooks, hint] at ho
    cases ho.1
  obtain ⟨k, hk⟩ := (sendrec_total hi.ipc hop).1 ⟨hcaller.msg_ne, hheeds⟩
  refine ⟨{ s with kernel := k }.goCall p (.back m r), ?_⟩
  simp only [SysStep, sysStep, hcall, MyOS.step, if_pos hrun, hk]
  rfl

/-- `task_sys` is never stuck while it runs. -/
theorem can_sys (hi : SysInv l s h) (hw : s.kernel.waits taskSys = .nothing) :
    ∃ s', SysStep l s .sys s' := by
  have hrun := waits_eq_nothing.1 hw
  suffices ∃ s', s.taskSysStep l = some s' by
    obtain ⟨s', hs'⟩ := this
    exact ⟨s', by simp only [SysStep, sysStep, if_pos hrun, hs']⟩
  have hserver := hi.server
  cases hserver with
  | receive _ hplace =>
    have hop : IpcOp (s.setMsg (s.kernel.la taskSys l.msg) Message.reset).kernel
        (.sendrec taskSys .receive any l.msg) := ⟨hrun, .inl rfl⟩
    have hheeds : ¬ Overlooks (s.setMsg (s.kernel.la taskSys l.msg) Message.reset).kernel taskSys
        any := by
      rintro ⟨-, c, hc, -⟩
      exact proc2pid_ne_any c hc.symm
    obtain ⟨k, hk⟩ := (sendrec_total (hi.reset_step hplace hrun _).ipc hop).1 ⟨l.msg_ne, hheeds⟩
    refine ⟨{ s.setMsg (s.kernel.la taskSys l.msg) Message.reset with
      kernel := k, place := .received }, ?_⟩
    simp only [SysServer.taskSysStep, hplace, hk]
    rfl
  | request u r _ hplace hmsg =>
    obtain ⟨msg, -, hs'⟩ := sysDispatch_eq hmsg
    refine ⟨answered l s u msg, ?_⟩
    simp only [SysServer.taskSysStep, hplace, hs']
  | reply u r v _ hplace =>
    have hu := hi.others u r rfl
    have hop : IpcOp s.kernel (.sendrec taskSys .send (proc2pid u) l.msg) :=
      ⟨hrun, u, rfl, hu, not_reaches_of_not_sending hi.not_sending hu⟩
    obtain ⟨k, hk⟩ := (sendrec_total hi.ipc hop).1 l.msg_ne
    refine ⟨{ s with kernel := k, place := .receive }, ?_⟩
    simp only [SysServer.taskSysStep, hplace, hk]
    rfl
  | waiting hw' => cases hw.symm.trans hw'
  | replying _ _ _ hw' => cases hw.symm.trans hw'

/-- Nobody waits for a process that is blocked sending to it. -/
theorem not_both (hi : SysInv l s h) {src : Int} (hp : s.kernel.waits p = .toReceive src a)
    (hsrc : src = proc2pid q ∨ src = any) (hq : s.kernel.waits q = .toSend (proc2pid p) m) :
    False := by
  obtain ⟨hrec, hfrom, -⟩ := receiving_of_waits hp
  exact hi.ipc.met.pair p q ⟨hrec, hfrom ▸ hsrc⟩ (sendsTo_iff.2 ⟨m, hq⟩)

/-- Whom `task_sys` replies to takes the reply. -/
theorem takes_reply (hi : SysInv l s (some (u, r))) (hu : Undisturbed s)
    (hw : s.kernel.waits taskSys = .toSend (proc2pid u) a) :
    ∃ s', SysStep l s (.receive u) s' := by
  have hclient := hi.clients u (hi.others u r rfl)
  cases hclient with
  | sent m r' h1 h2 h3 =>
    exact hi.can_receive h1 h3 (hu u (CallPlace.ne_home (m := m) (by rw [h1]; rfl)))
  | waiting m r' h1 h2 h3 => exact absurd hw fun hw => hi.not_both h3 (.inl rfl) hw
  | home _ _ h3 => exact absurd rfl (h3 r)
  | send _ _ _ _ h3 => exact absurd rfl (h3 r)
  | queued _ _ _ _ h3 => exact absurd rfl (h3 r)
  | back _ _ _ _ _ h3 => exact absurd rfl (h3 r)

/-- While a call is under way, one can go on. -/
theorem progress (hi : SysInv l s h) (hu : Undisturbed s) (hcall : s.calls p ≠ .home) :
    ∃ act s', CallStep l s act s' := by
  have hp : p ≠ taskSys := by
    rintro rfl
    exact hcall hi.sys_home
  have hserver := hi.server
  have hsys (hw : s.kernel.waits taskSys = .nothing) : ∃ act s', CallStep l s act s' := by
    obtain ⟨s', hs'⟩ := hi.can_sys hw
    exact ⟨.sys, s', trivial, hs'⟩
  have hclient := hi.clients p hp
  cases hclient with
  | home h1 => exact absurd h1 hcall
  | send m r h1 _ h3 h4 =>
    obtain ⟨s', hs'⟩ := hi.can_send h1 h4 h3
    exact ⟨.send p, s', trivial, hs'⟩
  | queued m r h1 _ h3 h4 =>
    cases hserver with
    | receive hw => exact hsys hw
    | waiting hw => exact absurd h4 fun h4 => hi.not_both hw (.inr rfl) h4
    | request _ _ hw => exact hsys hw
    | reply _ _ _ hw => exact hsys hw
    | replying u _ _ hw =>
      obtain ⟨s', hs'⟩ := hi.takes_reply hu hw
      exact ⟨.receive u, s', trivial, hs'⟩
  | sent m r h1 _ h3 =>
    obtain ⟨s', hs'⟩ := hi.can_receive h1 h3 (hu p hcall)
    exact ⟨.receive p, s', trivial, hs'⟩
  | waiting m r h1 h2 h3 =>
    subst h2
    cases hserver with
    | request _ _ hw => exact hsys hw
    | reply _ _ _ hw => exact hsys hw
    | replying _ _ _ hw => exact absurd hw fun hw => hi.not_both h3 (.inl rfl) hw
  | back m r v h1 _ _ h4 h5 =>
    refine ⟨.ret p, { s.goCall p .home with log := .ret (proc2pid p) v :: s.log }, trivial, ?_⟩
    simp only [SysStep, sysStep, h1, if_pos (waits_eq_nothing.1 h4)]
    exact congrArg (Option.map _) h5

end SysInv

/-! ## What the system task promises -/

/-- A trap makes no interrupt pending. -/
theorem sendrec_int {function : Function} {srcDest : Int}
    (hs : sendrec k p function srcDest m = .ok k')
    (hq : (k.procTable q).hasIntMsg = false) : (k'.procTable q).hasIntMsg = false := by
  obtain ⟨t, ht⟩ := exists_ne q
  suffices SameRest t k k' from this.hasIntMsg q ht.symm hq
  obtain ⟨la, k₁, -, ho, rfl⟩ := sendrec_ok hs
  cases ho with
  | send d k₁ _ _ ho =>
    generalize hk : (stamp (save k) p la).note _ = k₀ at ho
    have htab : k₀.procTable = k.procTable := by rw [← hk]; rfl
    cases ho with
    | handOff => exact ((handOff_rest k₀ p d _ la).of_table htab).restart
    | queueUp => exact ((queueUp_rest k₀ p d m _).of_table htab).restart
  | receive src k₁ ho =>
    generalize hk : stamp (save k) p la = k₀ at ho
    have htab : k₀.procTable = k.procTable := by rw [← hk]; rfl
    cases ho with
    | takeInterrupt => exact ((takeInterrupt_rest k₀ p la).of_table htab).restart
    | takeFrom c => exact ((takeFrom_rest k₀ p c _ la _).of_table htab).restart
    | waitFor => exact ((waitFor_rest k₀ p srcDest m).of_table htab).restart

theorem setMsg_procTable (s : SysServer) (a : Addr) (msg : Message) :
    (s.setMsg a msg).kernel.procTable = s.kernel.procTable := rfl

theorem setMsg_calls (s : SysServer) (a : Addr) (msg : Message) :
    (s.setMsg a msg).calls = s.calls := rfl

theorem sysDispatch_kept (hs : s.sysDispatch l = some s') :
    s'.calls = s.calls ∧ s'.kernel.procTable = s.kernel.procTable := by
  unfold SysServer.sysDispatch at hs
  dsimp only at hs
  split_ifs at hs <;> obtain rfl := Option.some.inj hs <;>
    exact ⟨setMsg_calls _ _ _, setMsg_procTable _ _ _⟩

/-- The steps of calls make no interrupt pending, and begin no call. -/
theorem Undisturbed.step {act : SysAct} (hu : Undisturbed s) (hs : CallStep l s act s') :
    Undisturbed s' := by
  obtain ⟨hof, hs⟩ := hs
  suffices h : ∀ q, (s'.calls q ≠ .home → s.calls q ≠ .home) ∧
      ((s.kernel.procTable q).hasIntMsg = false →
        (s'.kernel.procTable q).hasIntMsg = false) from
    fun q hq => (h q).2 (hu q ((h q).1 hq))
  have hgo {p : Slot} {place : CallPlace} {s₁ : SysServer} (hp : s.calls p ≠ .home)
      (hcalls : s₁.calls = s.calls) (q : Slot) (hq : (s₁.goCall p place).calls q ≠ .home) :
      s.calls q ≠ .home := by
    rcases eq_or_ne q p with rfl | hqp
    · exact hp
    · have hsame : (s₁.goCall p place).calls q = s₁.calls q := Function.update_of_ne hqp _ _
      rwa [hsame, hcalls] at hq
  intro q
  cases act with
  | sys =>
    obtain ⟨-, hs⟩ := Option.ite_none_right_eq_some.1 hs
    unfold SysServer.taskSysStep at hs
    split at hs
    · obtain ⟨k, hk, rfl⟩ := Option.map_eq_some_iff.1 hs
      have hint := sendrec_int (q := q) (toOption_eq_some.1 hk)
      rw [setMsg_procTable] at hint
      exact ⟨id, hint⟩
    · obtain ⟨hcalls, htab⟩ := sysDispatch_kept hs
      rw [hcalls, htab]
      exact ⟨id, id⟩
    · obtain ⟨k, hk, rfl⟩ := Option.map_eq_some_iff.1 hs
      exact ⟨id, sendrec_int (toOption_eq_some.1 hk)⟩
  | send p =>
    simp only [SysStep, sysStep] at hs
    split at hs
    · next m r hcall =>
      obtain ⟨k, hk, rfl⟩ := Option.map_eq_some_iff.1 hs
      obtain ⟨-, hk⟩ := Option.ite_none_right_eq_some.1 hk
      exact ⟨hgo (CallPlace.ne_home (m := m) (by rw [hcall]; rfl)) rfl q,
        sendrec_int (toOption_eq_some.1 hk)⟩
    · cases hs
  | receive p =>
    simp only [SysStep, sysStep] at hs
    split at hs
    · next m r hcall =>
      obtain ⟨k, hk, rfl⟩ := Option.map_eq_some_iff.1 hs
      obtain ⟨-, hk⟩ := Option.ite_none_right_eq_some.1 hk
      exact ⟨hgo (CallPlace.ne_home (m := m) (by rw [hcall]; rfl)) rfl q,
        sendrec_int (toOption_eq_some.1 hk)⟩
    · cases hs
  | ret p =>
    simp only [SysStep, sysStep] at hs
    split at hs
    · next m r hcall =>
      obtain ⟨-, hs⟩ := Option.ite_none_right_eq_some.1 hs
      obtain ⟨v, -, rfl⟩ := Option.map_eq_some_iff.1 hs
      exact ⟨hgo (CallPlace.ne_home (m := m) (by rw [hcall]; rfl)) rfl q, id⟩
    · cases hs
  | clock => exact absurd hof id
  | informInt t => exact absurd hof id
  | call p m r => exact absurd hof id
  | trap p function srcDest m => exact absurd hof id
  | write p a v => exact absurd hof id

theorem work_le (s : SysServer) :
    s.work ≤ 4 + 11 * (Finset.univ.filter fun p => s.calls p ≠ .home).card := by
  have hcall (p : Slot) : s.callWork p ≤ if s.calls p ≠ .home then 11 else 0 := by
    unfold SysServer.callWork
    cases hp : s.calls p <;> simp only <;> split_ifs <;> simp_all
  have hserver : s.serverWork ≤ 4 := by
    unfold SysServer.serverWork
    split
    · split_ifs <;> decide
    · split_ifs <;> decide
    · decide
  refine Nat.add_le_add hserver ((Finset.sum_le_sum fun p _ => hcall p).trans ?_)
  rw [← Finset.sum_filter, Finset.sum_const_nat fun _ _ => rfl, Nat.mul_comm]

/-- The first megabyte is that of `task_sys`, the rest that of `Init`. -/
def sysLayout : SysLayout where
  owner a := if a < 0x100000 then taskSys else init
  msg := 0x1000
  msg_ne := by decide
  msg_owns := by decide

theorem sysStart_kernelMain (mem : Mem) (ticks : Int) :
    SysStart ⟨kernelMain mem 0, ticks, .receive, fun _ => .home, []⟩ :=
  ⟨_, ticks, calm_kernelMain mem 0, rfl⟩

/-- In every run, whatever else the processes and the interrupts do: what a call returns to a
process is the answer that `task_sys` has given to this process for this call, once, at a tick
between the call and the return. -/
theorem sys_calls {tr : List SysAct} (hr : Run SysStart (SysStep l) tr s) :
    Calls.Legal sysAnswer s.log ∧ ∀ later pid v log, s.log = later ++ .ret pid v :: log →
      ∃ a ticks b r log', log = a ++ .serve pid ticks :: (b ++ .call pid r :: log') ∧
        (∀ e ∈ a ++ b, e.caller ≠ pid) ∧ v = sysAnswer ticks pid r := by
  obtain ⟨h, hi⟩ := SysInv.of_run hr
  refine ⟨hi.legal, fun later pid v log hlog => ?_⟩
  have hlegal := hi.legal
  rw [hlog] at hlegal
  obtain ⟨a, ticks, b, r, log', hlog', hothers, hv, -⟩ := hlegal.returned
  exact ⟨a, ticks, b, r, log', hlog', hothers, hv⟩

/-- `Init` asks for its number, and then for the ticks, which an interrupt changes meanwhile. -/
theorem sys_calls_init : ∃ s tr, Run SysStart (SysStep sysLayout) tr s ∧
    s.log = [.ret 5 8, .serve 5 8, .call 5 .getTicks, .ret 5 5, .serve 5 7, .call 5 .getPid] ∧
      Calls.Legal sysAnswer s.log := by
  have hany : (Run.exec (sysStep sysLayout)
      ⟨kernelMain (fun _ => 0) 0, 7, .receive, fun _ => .home, []⟩
      [.call init 0x200000 .getPid, .send init, .sys, .sys, .receive init, .sys, .ret init,
        .call init 0x200000 .getTicks, .clock, .send init, .sys, .sys, .receive init, .sys,
        .ret init]).any (fun s => s.log =
          [.ret 5 8, .serve 5 8, .call 5 .getTicks, .ret 5 5, .serve 5 7, .call 5 .getPid]) =
      true := by decide +kernel
  obtain ⟨s, hs, hlog⟩ := (Option.any_eq_true _ _).1 hany
  have hrun := Run.of_exec (.start (sysStart_kernelMain _ 7)) hs
  exact ⟨s, _, hrun, of_decide_eq_true hlog, (sys_calls hrun).1⟩

/-- In every run: the calls under way come back, in whatever order their steps are taken, where no
interrupt disturbs a caller. They take a few steps each, and until all are back one can go on. -/
theorem sys_calls_return {tr tr' : List SysAct} (hr : Run SysStart (SysStep l) tr s)
    (hu : Undisturbed s) (hr' : Run (· = s) (CallStep l) tr' s') :
    tr'.length ≤ 4 + 11 * (Finset.univ.filter fun p => s.calls p ≠ .home).card ∧
      ((∃ p, s'.calls p ≠ .home) → ∃ act s'', CallStep l s' act s'') := by
  have hlowers : Ranking.Lowers (CallStep l) SysServer.work
      fun s => (∃ h, SysInv l s h) ∧ Undisturbed s := by
    rintro s₁ act s₂ ⟨⟨h, hi⟩, hu⟩ hs
    obtain ⟨h', hi', hlt⟩ := hi.step hs.2
    exact ⟨⟨⟨h', hi'⟩, hu.step hs⟩, hlt hs.1⟩
  obtain ⟨⟨⟨h, hi⟩, hu'⟩, hlen⟩ := hlowers.of_run ⟨SysInv.of_run hr, hu⟩ hr'
  refine ⟨(Nat.le_add_right _ _).trans (hlen.trans (work_le s)), ?_⟩
  rintro ⟨p, hp⟩
  exact hi.progress hu' hp

/-- `Init` is before the first trap of a `getpid`. -/
theorem sys_calls_return_init : ∃ s, Run SysStart (SysStep sysLayout)
    [.call init 0x200000 .getPid] s ∧ s.calls init = .send 0x200000 .getPid ∧
      ∃ act s', CallStep sysLayout s act s' := by
  have hany : (Run.exec (sysStep sysLayout)
      ⟨kernelMain (fun _ => 0) 0, 7, .receive, fun _ => .home, []⟩
      [.call init 0x200000 .getPid]).any (fun s => s.calls init = .send 0x200000 .getPid ∧
        ∀ p, (s.kernel.procTable p).hasIntMsg = false) = true := by decide +kernel
  obtain ⟨s, hs, hcall⟩ := (Option.any_eq_true _ _).1 hany
  obtain ⟨hcall, hint⟩ := of_decide_eq_true hcall
  have hrun := Run.of_exec (.start (sysStart_kernelMain _ 7)) hs
  refine ⟨s, hrun, hcall, ?_⟩
  refine (sys_calls_return hrun (fun p _ => hint p) (.start rfl)).2 ⟨init, ?_⟩
  exact CallPlace.ne_home (m := 0x200000) (by rw [hcall]; rfl)

end MyOS
