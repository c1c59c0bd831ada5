import MyOS.Proofs.Waits
import MyOS.Proofs.Readers
import MyOS.Proofs.ScanCodes
import MyOS.Proofs.SrcDest

/-!
# The servers send to each other

`task_fs` forwards a request to `task_tty` and waits for the answer; `task_tty` announces a line to
`task_fs` whenever one is complete. Where the two ways do not cross, one of the servers is always
free to take the message of the other, and no `SEND` meets a cycle. Where a line ends while a
request is on its way, or a request is taken up while a line is being announced, each server comes
to send to the other.
-/

namespace MyOS

open Memory

/-! ## The condition -/

/-- The process a place of the terminal task sends to. -/
def TtyPlace.dest : TtyPlace → Option Int
  | .send dest _ _ => some dest
  | _ => none

/-- The next character ends the line of a reader, as `tty_dev_write` finds out. -/
def EndsLine (t : Tty) : Prop :=
  t.ttyLeftCnt ≠ 0 ∧ ∃ r ∈ (editLine (nextChar t).2 (nextChar t).1).toOption,
    (nextChar t).1 = newline ∨ r.1.ttyLeftCnt = 0

instance (t : Tty) : Decidable (EndsLine t) := inferInstanceAs (Decidable (_ ∧ _))

/-- Where the next character would go to its reader. -/
def StoresAt (t : Tty) (a : Addr) : Prop :=
  t.ttyLeftCnt ≠ 0 ∧ space.toInt ≤ (nextChar t).1.toInt ∧ (nextChar t).1.toInt ≤ tilde.toInt ∧
    a = t.ttyReqBuf + t.ttyTransCnt

namespace Servers

/-- `do_rdwt` is on its way to the terminals. -/
def Forwards (s : Servers) : Prop :=
  (∃ src len, s.fsPlace = .forward src len) ∨ SendsTo s.kernel taskFs taskTty

/-- `tty_dev_write` is on its way to the file system. -/
def Announces (s : Servers) : Prop :=
  (∃ dest m tty, s.tty.place = .send dest m (some tty)) ∨ SendsTo s.kernel taskTty taskFs

/-- The memory of a server, or of a process that is blocked in a `SEND`. -/
def Held (l : ServerLayout) (s : Servers) (a : Addr) : Prop :=
  l.owner a = taskFs ∨ l.owner a = taskTty ∨ Sending (s.kernel.procTable (l.owner a))

/-- The process makes a `SEND` to `d` next, or may. -/
inductive Sends (s : Servers) : Slot → Slot → Prop
  | tty {d : Slot} {m : Addr} {back : Option Minor} : (s.kernel.procTable taskTty).pFlags = 0 →
    s.tty.place = .send (proc2pid d) m back → Sends s taskTty d
  | forward {src : Int} {len : BitVec 32} : (s.kernel.procTable taskFs).pFlags = 0 →
    s.fsPlace = .forward src len → Sends s taskFs taskTty
  | reply {d : Slot} : (s.kernel.procTable taskFs).pFlags = 0 → s.fsPlace = .reply (proc2pid d) →
    Sends s taskFs d
  | ask {p : Slot} : (s.kernel.procTable p).pFlags = 0 → nrTasks ≤ p.val → s.asked p = none →
    Sends s p taskFs

/-- One of the servers is blocked sending to the other, which makes a `SEND` to it next. -/
def Crossing (s : Servers) : Prop :=
  SendsTo s.kernel taskFs taskTty ∧ s.Sends taskTty taskFs ∨
    SendsTo s.kernel taskTty taskFs ∧ s.Sends taskFs taskTty

end Servers

/-- A character that ends a line is taken only while no request is on its way to the terminals, a
request is taken up only while no line is being announced, and no character goes where a message
is. -/
def KeepsApart (l : ServerLayout) (s : Servers) : SrvAct → Prop
  | .tty => ∀ tty, s.tty.place = .write tty → (s.tty.ttyTable tty).inbufCount ≠ 0 →
    (EndsLine (s.tty.ttyTable tty) → ¬ s.Forwards) ∧
      ∀ a, StoresAt (s.tty.ttyTable tty) a → ¬ s.Held l a
  | .fs => s.fsPlace = .received →
    (s.kernel.msgAt taskFs l.fsMsg).type = MsgType.read.code ∨
      (s.kernel.msgAt taskFs l.fsMsg).type = MsgType.write.code → ¬ s.Announces
  | _ => True

/-! ## Where a request is -/

/-- Which part of the system has the request of a process. -/
inductive Holder
  | nobody
  /-- It waits in the queue of `task_fs`. -/
  | queue
  | fs
  | tty (t : Minor)
  /-- Its line is complete, and on its way to `task_fs`. -/
  | line
  deriving DecidableEq

/-- What `task_fs` has to do with the terminals. -/
inductive FsMode
  | apart
  | forwards (u : Slot)
  | awaits (u : Slot)

/-- What `task_tty` has to do with the file system. -/
inductive TtyMode
  | apart
  | answers (u : Slot)
  | announces (u : Slot)

/-- A request of `u`, as it reaches `task_fs`. -/
structure IsRequest (msg : Message) (u : Slot) : Prop where
  source : msg.source = BitVec.ofInt 32 (proc2pid u)
  type : msg.type = MsgType.read.code ∨ msg.type = MsgType.write.code

/-- A request for `u` that `do_rdwt` forwards. -/
structure IsForward (msg : Message) (u : Slot) : Prop where
  type : msg.type = MsgType.devRead.code ∨ msg.type = MsgType.devWrite.code
  procNr : msg.procNr = BitVec.ofInt 32 (proc2pid u)

/-- The announcement of a line to `u`. -/
structure IsLine (msg : Message) (u : Slot) : Prop where
  type : msg.type = MsgType.resumeProc.code
  procNr : msg.procNr = BitVec.ofInt 32 (proc2pid u)

variable {l : ServerLayout} {s s' : Servers} {h h' : Slot → Holder} {f f' : FsMode} {t t' : TtyMode}
  {p q u : Slot}

/-- The answer of a terminal suspends the process, or the request is still with `task_fs`. -/
def Answers (h : Slot → Holder) (msg : Message) (u : Slot) : Prop :=
  msg.type = MsgType.suspendProc.code ∨ h u = .fs

/-- What holds while `task_fs` is at a place of its loop: the message it has there, and which
process it is working for. -/
inductive FsIn (l : ServerLayout) (s : Servers) (h : Slot → Holder) : FsMode → Prop
  | receive : s.kernel.waits taskFs = .nothing → s.fsPlace = .receive → FsIn l s h .apart
  | waiting : s.kernel.waits taskFs = .toReceive any l.fsMsg → s.fsPlace = .received →
    FsIn l s h .apart
  | request (u : Slot) : s.kernel.waits taskFs = .nothing → s.fsPlace = .received →
    IsRequest (s.kernel.msgAt taskFs l.fsMsg) u → h u = .fs → FsIn l s h .apart
  | line (u : Slot) : s.kernel.waits taskFs = .nothing → s.fsPlace = .received →
    IsLine (s.kernel.msgAt taskFs l.fsMsg) u → h u = .fs → FsIn l s h .apart
  | answered (u : Slot) (len : BitVec 32) : s.kernel.waits taskFs = .nothing →
    s.fsPlace = .answered (proc2pid u) len → Answers h (s.kernel.msgAt taskFs l.fsMsg) u →
    FsIn l s h .apart
  | reply (u : Slot) : s.kernel.waits taskFs = .nothing → s.fsPlace = .reply (proc2pid u) →
    h u = .fs → FsIn l s h .apart
  | replying (u : Slot) : s.kernel.waits taskFs = .toSend (proc2pid u) l.fsMsg →
    s.fsPlace = .receive → h u = .fs → FsIn l s h .apart
  | forward (u : Slot) (len : BitVec 32) : s.kernel.waits taskFs = .nothing →
    s.fsPlace = .forward (proc2pid u) len → IsForward (s.kernel.msgAt taskFs l.fsMsg) u →
    h u = .fs → FsIn l s h (.forwards u)
  | forwarding (u : Slot) (len : BitVec 32) :
    s.kernel.waits taskFs = .toSend (proc2pid taskTty) l.fsMsg →
    s.fsPlace = .await (proc2pid u) len → IsForward (s.kernel.msgAt taskFs l.fsMsg) u →
    (s.kernel.msgAt taskFs l.fsMsg).source = BitVec.ofInt 32 (proc2pid taskFs) → h u = .fs →
    FsIn l s h (.forwards u)
  | await (u : Slot) (len : BitVec 32) : s.kernel.waits taskFs = .nothing →
    s.fsPlace = .await (proc2pid u) len → FsIn l s h (.awaits u)
  | awaiting (u : Slot) (len : BitVec 32) :
    s.kernel.waits taskFs = .toReceive (proc2pid taskTty) l.fsMsg →
    s.fsPlace = .answered (proc2pid u) len → FsIn l s h (.awaits u)

/-- The loop over the terminals, up to the `RECEIVE`. -/
def TtyPlace.InLoop : TtyPlace → Prop
  | .read _ | .scan _ _ | .write _ | .again _ | .receive => True
  | .send _ _ _ | .received => False

/-- The same for `task_tty`; between its answers it reads and writes characters. -/
inductive TtyIn (l : ServerLayout) (s : Servers) (h : Slot → Holder) : TtyMode → Prop
  | runs : s.kernel.waits taskTty = .nothing → s.tty.place.InLoop → TtyIn l s h .apart
  | waiting : s.kernel.waits taskTty = .toReceive any l.stack.msg → s.tty.place = .received →
    TtyIn l s h .apart
  | interrupted : s.kernel.waits taskTty = .nothing → s.tty.place = .received →
    (s.kernel.msgAt taskTty l.stack.msg).type = MsgType.hardInt.code → TtyIn l s h .apart
  | request (u : Slot) : s.kernel.waits taskTty = .nothing → s.tty.place = .received →
    IsForward (s.kernel.msgAt taskTty l.stack.msg) u →
    (s.kernel.msgAt taskTty l.stack.msg).source = BitVec.ofInt 32 (proc2pid taskFs) →
    h u = .fs → TtyIn l s h (.answers u)
  | answer (u : Slot) : s.kernel.waits taskTty = .nothing →
    s.tty.place = .send (proc2pid taskFs) l.stack.msg none →
    Answers h (s.kernel.msgAt taskTty l.stack.msg) u → TtyIn l s h (.answers u)
  | answering (u : Slot) : s.kernel.waits taskTty = .toSend (proc2pid taskFs) l.stack.msg →
    s.tty.place = .read 0 → Answers h (s.kernel.msgAt taskTty l.stack.msg) u →
    TtyIn l s h (.answers u)
  | line (u : Slot) (tty : Minor) : s.kernel.waits taskTty = .nothing →
    s.tty.place = .send (proc2pid taskFs) l.stack.resumeMsg (some tty) →
    IsLine (s.kernel.msgAt taskTty l.stack.resumeMsg) u → h u = .line → TtyIn l s h (.announces u)
  | announcing (u : Slot) (tty : Minor) :
    s.kernel.waits taskTty = .toSend (proc2pid taskFs) l.stack.resumeMsg →
    s.tty.place = .write tty → IsLine (s.kernel.msgAt taskTty l.stack.resumeMsg) u →
    h u = .line → TtyIn l s h (.announces u)

/-- What the two servers may be about at the same time: a request on its way to the terminals meets
no announcement, and the file system waits for an answer just while one is due. -/
def Meet : FsMode → TtyMode → Prop
  | .apart, .apart => True
  | .apart, .announces _ => True
  | .forwards _, .apart => True
  | .awaits u, .answers u' => u = u'
  | _, _ => False

inductive ClientIn (l : ServerLayout) (s : Servers) (h : Slot → Holder) (p : Slot) : Prop
  | idle : s.kernel.waits p = .nothing ∨ s.kernel.waits p = .other → s.asked p = none →
    h p = .nobody → ClientIn l s h p
  | asked (m : Addr) : s.kernel.waits p = .nothing → s.asked p = some m →
    OwnsMsg l.owner p (s.kernel.la p m) → ClientIn l s h p
  | queued (m : Addr) : s.kernel.waits p = .toSend (proc2pid taskFs) m → s.asked p = some m →
    OwnsMsg l.owner p (s.kernel.la p m) → h p = .queue → IsRequest (s.kernel.msgAt p m) p →
    ClientIn l s h p
  | waiting (m : Addr) : s.kernel.waits p = .toReceive (proc2pid taskFs) m → s.asked p = none →
    OwnsMsg l.owner p (s.kernel.la p m) → ClientIn l s h p

/-- The reader a terminal serves has its request there. -/
def ServesReader (h : Slot → Holder) (tty : Minor) (x : Tty) : Prop :=
  x.ttyLeftCnt ≠ 0 → x.ttyCaller = proc2pid taskFs ∧ ∃ u, x.ttyProcnr = proc2pid u ∧ h u = .tty tty

structure SrvInv (l : ServerLayout) (s : Servers) (h : Slot → Holder) : Prop where
  native : NativeBase s.kernel
  ints : ∀ q, q ≠ taskTty → (s.kernel.procTable q).hasIntMsg = false
  servers : h taskFs = .nobody ∧ h taskTty = .nobody
  clients : ∀ q, q ≠ taskFs → q ≠ taskTty → ClientIn l s h q
  terminals : ∀ tty, ServesReader h tty (s.tty.ttyTable tty)
  modes : ∃ f t, FsIn l s h f ∧ TtyIn l s h t ∧ Meet f t

/-! ## What stays -/

theorem FsIn.frame (hf : FsIn l s h f) (hw : s'.kernel.waits taskFs = s.kernel.waits taskFs)
    (hp : s'.fsPlace = s.fsPlace)
    (hm : s'.kernel.msgAt taskFs l.fsMsg = s.kernel.msgAt taskFs l.fsMsg)
    (hh : ∀ u, h u = .fs → h' u = .fs ∨ f = .awaits u) : FsIn l s' h' f := by
  have hfs {u : Slot} (hu : h u = .fs) (hn : ∀ u, f ≠ .awaits u) : h' u = .fs :=
    (hh u hu).resolve_right (hn u)
  cases hf with
  | receive h1 h2 => exact .receive (hw.trans h1) (hp.trans h2)
  | waiting h1 h2 => exact .waiting (hw.trans h1) (hp.trans h2)
  | request u h1 h2 h3 h4 =>
    exact .request u (hw.trans h1) (hp.trans h2) (by rwa [hm]) (hfs h4 nofun)
  | line u h1 h2 h3 h4 => exact .line u (hw.trans h1) (hp.trans h2) (by rwa [hm]) (hfs h4 nofun)
  | answered u len h1 h2 h3 =>
    exact .answered u len (hw.trans h1) (hp.trans h2) (by
      rw [hm]
      exact h3.imp_right fun hu => hfs hu nofun)
  | reply u h1 h2 h3 => exact .reply u (hw.trans h1) (hp.trans h2) (hfs h3 nofun)
  | replying u h1 h2 h3 => exact .replying u (hw.trans h1) (hp.trans h2) (hfs h3 nofun)
  | forward u len h1 h2 h3 h4 =>
    exact .forward u len (hw.trans h1) (hp.trans h2) (by rwa [hm]) (hfs h4 nofun)
  | forwarding u len h1 h2 h3 h4 h5 =>
    exact .forwarding u len (hw.trans h1) (hp.trans h2) (by rwa [hm]) (by rwa [hm]) (hfs h5 nofun)
  | await u len h1 h2 => exact .await u len (hw.trans h1) (hp.trans h2)
  | awaiting u len h1 h2 => exact .awaiting u len (hw.trans h1) (hp.trans h2)

/-- The request a mode is about. -/
def TtyMode.About : TtyMode → Slot → Prop
  | .apart, _ => False
  | .answers u, u' => u = u'
  | .announces u, u' => u = u'

theorem TtyIn.frame (ht : TtyIn l s h t) (hw : s'.kernel.waits taskTty = s.kernel.waits taskTty)
    (hp : s'.tty.place = s.tty.place)
    (hm : s'.kernel.msgAt taskTty l.stack.msg = s.kernel.msgAt taskTty l.stack.msg)
    (hr : s'.kernel.msgAt taskTty l.stack.resumeMsg = s.kernel.msgAt taskTty l.stack.resumeMsg)
    (hh : ∀ u, t.About u → h u ≠ .nobody → h' u = h u) : TtyIn l s' h' t := by
  have hfs {u : Slot} (ha : t.About u) (hu : h u = .fs) : h' u = .fs :=
    (hh u ha (by simp [hu])).trans hu
  have hline {u : Slot} (ha : t.About u) (hu : h u = .line) : h' u = .line :=
    (hh u ha (by simp [hu])).trans hu
  cases ht with
  | runs h1 h2 => exact .runs (hw.trans h1) (by rwa [hp])
  | waiting h1 h2 => exact .waiting (hw.trans h1) (hp.trans h2)
  | interrupted h1 h2 h3 => exact .interrupted (hw.trans h1) (hp.trans h2) (by rwa [hm])
  | request u h1 h2 h3 h4 h5 =>
    exact .request u (hw.trans h1) (hp.trans h2) (by rwa [hm]) (by rwa [hm]) (hfs rfl h5)
  | answer u h1 h2 h3 =>
    exact .answer u (hw.trans h1) (hp.trans h2) (by
      rw [hm]
      exact h3.imp_right (hfs rfl))
  | answering u h1 h2 h3 =>
    exact .answering u (hw.trans h1) (hp.trans h2) (by
      rw [hm]
      exact h3.imp_right (hfs rfl))
  | line u tty h1 h2 h3 h4 =>
    exact .line u tty (hw.trans h1) (hp.trans h2) (by rwa [hr]) (hline rfl h4)
  | announcing u tty h1 h2 h3 h4 =>
    exact .announcing u tty (hw.trans h1) (hp.trans h2) (by rwa [hr]) (hline rfl h4)

/-- Beside a file system that has nothing to do with it, a terminal is about a line at most. -/
theorem TtyIn.about_line (ht : TtyIn l s h t) (hm : Meet .apart t) (hu : t.About u) :
    h u = .line := by
  cases ht with
  | line v tty _ _ _ hv => exact hu ▸ hv
  | announcing v tty _ _ _ hv => exact hu ▸ hv
  | runs | waiting | interrupted => exact hu.elim
  | request | answer | answering => exact hm.elim

theorem ClientIn.frame (hc : ClientIn l s h p) (hw : s'.kernel.waits p = s.kernel.waits p)
    (ha : s'.asked p = s.asked p) (hl : ∀ m, s'.kernel.la p m = s.kernel.la p m)
    (hm : ∀ m, s.kernel.waits p = .toSend (proc2pid taskFs) m →
      s'.kernel.msgAt p m = s.kernel.msgAt p m)
    (hh : h p = .nobody ∨ h p = .queue → h' p = h p) : ClientIn l s' h' p := by
  cases hc with
  | idle h1 h2 h3 => exact .idle (by rwa [hw]) (ha.trans h2) ((hh (.inl h3)).trans h3)
  | asked m h1 h2 h3 => exact .asked m (hw.trans h1) (ha.trans h2) (by rwa [hl])
  | queued m h1 h2 h3 h4 h5 =>
    exact .queued m (hw.trans h1) (ha.trans h2) (by rwa [hl]) ((hh (.inr h4)).trans h4)
      (by rwa [hm m h1])
  | waiting m h1 h2 h3 => exact .waiting m (hw.trans h1) (ha.trans h2) (by rwa [hl])

/-! ## A change of the kernel -/

theorem NativeBase.la {k : Kernel} (hn : NativeBase k) (hp : p.val < nrTasks + nrNativeProcs)
    (a : Addr) : k.la p a = a := by
  rw [Kernel.la, hn p hp]
  exact BitVec.zero_add a

theorem msgAt_of_mem {owner : Addr → Slot} {S : Slot → Prop} {k k' : Kernel} {a : Addr}
    (hm : MemOf owner S k.mem k'.mem) (hl : k'.la p a = k.la p a) (ho : OwnsMsg owner p (k.la p a))
    (hp : ¬ S p) : k'.msgAt p a = k.msgAt p a := by
  rw [Kernel.msgAt, hl]
  exact hm.load ho hp

namespace SrvInv

variable {S : Slot → Prop}

theorem fsMsg_owns (hi : SrvInv l s h) : OwnsMsg l.owner taskFs (s.kernel.la taskFs l.fsMsg) := by
  rw [hi.native.la (by decide)]
  exact l.fsMsg_owns

theorem msg_owns (hi : SrvInv l s h) : OwnsMsg l.owner taskTty
    (s.kernel.la taskTty l.stack.msg) := by
  rw [hi.native.la (by decide)]
  exact l.msg_owns

theorem resumeMsg_owns (hi : SrvInv l s h) :
    OwnsMsg l.owner taskTty (s.kernel.la taskTty l.stack.resumeMsg) := by
  rw [hi.native.la (by decide)]
  exact l.resumeMsg_owns

/-- A process that is blocked has its message in its own memory. -/
theorem owns (hi : SrvInv l s h) (p : Slot) {m : Addr}
    (hw : (∃ d, s.kernel.waits p = .toSend d m) ∨ ∃ src, s.kernel.waits p = .toReceive src m) :
    OwnsMsg l.owner p (s.kernel.la p m) := by
  obtain ⟨f, t, hf, ht, -⟩ := hi.modes
  by_cases hfs : p = taskFs
  · subst hfs
    obtain rfl : m = l.fsMsg := by
      cases hf <;> rcases hw with ⟨d, hw⟩ | ⟨d, hw⟩ <;> simp_all
    exact hi.fsMsg_owns
  by_cases htty : p = taskTty
  · subst htty
    have hm : m = l.stack.msg ∨ m = l.stack.resumeMsg := by
      cases ht <;> rcases hw with ⟨d, hw⟩ | ⟨d, hw⟩ <;> simp_all
    rcases hm with rfl | rfl
    · exact hi.msg_owns
    · exact hi.resumeMsg_owns
  rcases hi.clients p hfs htty with
    ⟨hn, -, -⟩ | ⟨m', hn, -, -⟩ | ⟨m', hn, -, ho, -⟩ | ⟨m', hn, -, ho⟩ <;>
    rcases hw with ⟨d, hw⟩ | ⟨d, hw⟩ <;> simp_all

/-- What a step leaves of the invariant. -/
structure Change (l : ServerLayout) (s s' : Servers) (S : Slot → Prop) : Prop where
  rest : SameRest taskTty s.kernel s'.kernel
  mem : MemOf l.owner S s.kernel.mem s'.kernel.mem

theorem fs_frame (hi : SrvInv l s h) (hc : Change l s s' S) (hS : ¬ S taskFs) (hf : FsIn l s h f)
    (hw : s'.kernel.waits taskFs = s.kernel.waits taskFs) (hp : s'.fsPlace = s.fsPlace)
    (hh : ∀ u, h u = .fs → h' u = .fs ∨ f = .awaits u) : FsIn l s' h' f :=
  hf.frame hw hp (msgAt_of_mem hc.mem (hc.rest.la _ _) hi.fsMsg_owns hS) hh

theorem tty_frame (hi : SrvInv l s h) (hc : Change l s s' S) (hS : ¬ S taskTty)
    (ht : TtyIn l s h t) (hw : s'.kernel.waits taskTty = s.kernel.waits taskTty)
    (hp : s'.tty.place = s.tty.place) (hh : ∀ u, t.About u → h u ≠ .nobody → h' u = h u) :
    TtyIn l s' h' t :=
  ht.frame hw hp (msgAt_of_mem hc.mem (hc.rest.la _ _) hi.msg_owns hS)
    (msgAt_of_mem hc.mem (hc.rest.la _ _) hi.resumeMsg_owns hS) hh

theorem client_frame (hi : SrvInv l s h) (hc : Change l s s' S)
    (hS : S p → ∀ m, s.kernel.waits p ≠ .toSend (proc2pid taskFs) m) (hp : ClientIn l s h p)
    (hw : s'.kernel.waits p = s.kernel.waits p) (ha : s'.asked p = s.asked p)
    (hh : h p = .nobody ∨ h p = .queue → h' p = h p) : ClientIn l s' h' p :=
  hp.frame hw ha (hc.rest.la p) (fun m hm => msgAt_of_mem hc.mem (hc.rest.la _ _)
    (hi.owns p (.inl ⟨_, hm⟩)) fun hs => hS hs m hm) hh

/-- The processes beside the servers and `p`. -/
theorem clients_frame (hi : SrvInv l s h) (hc : Change l s s' S) (p : Slot)
    (hS : ∀ q, S q → q = taskFs ∨ q = taskTty ∨ q = p)
    (hw : ∀ q, q ≠ taskFs → q ≠ taskTty → q ≠ p → s'.kernel.waits q = s.kernel.waits q)
    (ha : ∀ q, q ≠ p → s'.asked q = s.asked q)
    (hh : ∀ q, q ≠ p → h q = .nobody ∨ h q = .queue → h' q = h q)
    (hp : p ≠ taskFs → p ≠ taskTty → ClientIn l s' h' p) (q : Slot) (hfs : q ≠ taskFs)
    (htty : q ≠ taskTty) : ClientIn l s' h' q := by
  rcases eq_or_ne q p with rfl | hqp
  · exact hp hfs htty
  · refine hi.client_frame hc (fun hq => ?_) (hi.clients q hfs htty) (hw q hfs htty hqp) (ha q hqp)
      (hh q hqp)
    rcases hS q hq with hq | hq | hq
    · exact absurd hq hfs
    · exact absurd hq htty
    · exact absurd hq hqp

theorem change (hi : SrvInv l s h) (hc : Change l s s' S)
    (hs : h' taskFs = .nobody ∧ h' taskTty = .nobody)
    (hcl : ∀ q, q ≠ taskFs → q ≠ taskTty → ClientIn l s' h' q)
    (ht : ∀ tty, ServesReader h' tty (s'.tty.ttyTable tty))
    (hm : ∃ f t, FsIn l s' h' f ∧ TtyIn l s' h' t ∧ Meet f t) : SrvInv l s' h' where
  native := fun q hq => by rw [hc.rest.ldts, hi.native q hq]
  ints := fun q hq => hc.rest.hasIntMsg q hq (hi.ints q hq)
  servers := hs
  clients := hcl
  terminals := ht
  modes := hm

/-! ## A request that changes hands -/

theorem update_holder {x : Holder} (hu : h q ≠ h u) : Function.update h u x q = h q :=
  Function.update_of_ne (fun he => hu (by rw [he])) _ _

theorem servers_update (hi : SrvInv l s h) (hu : h u ≠ .nobody) (x : Holder) :
    Function.update h u x taskFs = .nobody ∧ Function.update h u x taskTty = .nobody := by
  obtain ⟨h1, h2⟩ := hi.servers
  exact ⟨(update_holder (h1 ▸ hu.symm)).trans h1, (update_holder (h2 ▸ hu.symm)).trans h2⟩

theorem update_held {x : Holder} (h1 : h u ≠ .nobody) (h2 : h u ≠ .queue) (q : Slot)
    (hq : h q = .nobody ∨ h q = .queue) : Function.update h u x q = h q :=
  update_holder (by rcases hq with hq | hq <;> simp [hq, h1.symm, h2.symm])

theorem serves_update {x : Tty} {tty : Minor} (hs : ServesReader h tty x) (hu : h u ≠ .tty tty)
    (y : Holder) : ServesReader (Function.update h u y) tty x := by
  intro hleft
  obtain ⟨hcaller, v, hv, hh⟩ := hs hleft
  exact ⟨hcaller, v, hv, (update_holder (hh ▸ hu.symm)).trans hh⟩

/-! ## The steps of `task_fs` -/

theorem setFsMsg_change (hi : SrvInv l s h) (msg : Message) (place : FsPlace) :
    Change l s ((s.setFsMsg l msg).goFs place) (· = taskFs) :=
  ⟨⟨fun _ => rfl, fun _ _ hq => hq⟩, .store (S := (· = taskFs)) hi.fsMsg_owns rfl msg⟩

theorem setFsMsg_msgAt (s : Servers) (msg : Message) (place : FsPlace) :
    ((s.setFsMsg l msg).goFs place).kernel.msgAt taskFs l.fsMsg = msg :=
  Message.load_store _ _ _

/-- `task_fs` writes to `fs_msg` and goes on. -/
theorem fs_moves (hi : SrvInv l s h) (msg : Message) {place : FsPlace}
    (hm : ∃ f t, FsIn l ((s.setFsMsg l msg).goFs place) h f ∧ TtyIn l s h t ∧ Meet f t) :
    SrvInv l ((s.setFsMsg l msg).goFs place) h := by
  have hc := hi.setFsMsg_change msg place
  obtain ⟨f, t, hf, ht, hmeet⟩ := hm
  refine hi.change hc hi.servers (fun q hfs htty => ?_) hi.terminals ⟨f, t, hf, ?_, hmeet⟩
  · exact hi.client_frame hc (fun hq => absurd hq hfs) (hi.clients q hfs htty) rfl rfl fun _ => rfl
  · exact hi.tty_frame hc (by decide) ht rfl rfl fun _ _ _ => rfl

/-- The end of the loop of `task_fs` for a request that is with it, or that stays with a
terminal. -/
theorem fsAnswer (hi : SrvInv l s h) (hw : s.kernel.waits taskFs = .nothing) {msg : Message}
    (hu : Answers h msg u) {t : TtyMode} (ht : TtyIn l s h t) (hm : Meet .apart t) :
    SrvInv l (s.fsAnswer l (proc2pid u) msg) h := by
  unfold Servers.fsAnswer
  split_ifs with hs
  · exact hi.fs_moves _ ⟨_, t, .reply u hw rfl (hu.resolve_left hs), ht, hm⟩
  · exact hi.fs_moves _ ⟨_, t, .receive hw rfl, ht, hm⟩

theorem fsDispatch {fs : Fs} (hi : SrvInv l s h) (hw : s.kernel.waits taskFs = .nothing)
    (hp : s.fsPlace = .received) (hk : KeepsApart l s .fs) (hs : s.fsDispatch fs l = some s') :
    SrvInv l s' h := by
  obtain ⟨f, t, hf, ht, hm⟩ := hi.modes
  cases hf with
  | request u _ _ hreq hu =>
    obtain ⟨hsrc, htype⟩ := hreq
    have hmeet : Meet (.forwards u) t := by
      have hn := hk hp htype
      cases ht with
      | line u tty _ hplace => exact absurd (.inl ⟨_, _, _, hplace⟩) hn
      | announcing u tty hsend => exact absurd (.inr (sendsTo_iff.2 ⟨_, hsend⟩)) hn
      | request | answer | answering => exact hm.elim
      | runs | waiting | interrupted => trivial
    simp only [Servers.fsDispatch, if_pos htype, hsrc, toInt_proc2pid] at hs
    split at hs
    · simp at hs
    · obtain rfl := Option.some.inj hs
      exact hi.fsAnswer hw (.inr hu) ht hm
    · split_ifs at hs
      rw [toOption_eq_some, Servers.forwardRdwt] at hs
      simp only [assert_bind_eq_ok, Except.ok.injEq, hsrc, toInt_proc2pid] at hs
      obtain ⟨-, rfl⟩ := hs
      refine hi.fs_moves _ ⟨_, t, .forward u _ hw rfl ?_ hu, ht, hmeet⟩
      rw [setFsMsg_msgAt]
      refine ⟨?_, rfl⟩
      split_ifs
      · exact .inl rfl
      · exact .inr rfl
  | line u _ _ hline hu =>
    obtain ⟨htype, hnr⟩ := hline
    have hnone : ¬ (MsgType.resumeProc.code = MsgType.read.code ∨
        MsgType.resumeProc.code = MsgType.write.code) := by decide
    simp only [Servers.fsDispatch, htype, if_neg hnone, if_pos, hnr, toInt_proc2pid,
      Option.some.injEq] at hs
    subst hs
    exact hi.fsAnswer hw (.inr hu) ht hm
  | _ => simp_all

theorem fs_receive {k : Kernel} (hi : SrvInv l s h)
    (hrun : (s.kernel.procTable taskFs).pFlags = 0) (hp : s.fsPlace = .receive)
    (hs : sendrec s.kernel taskFs .receive any l.fsMsg = .ok k) :
    ∃ h', SrvInv l ((s.setKernel k).goFs .received) h' := by
  obtain ⟨hseen, hmem, hrest⟩ := receive_seen (t := taskTty) hrun hi.fsMsg_owns
    (fun p d a hw => hi.owns p (.inl ⟨d, hw⟩)) hs
  have hc : Change l s ((s.setKernel k).goFs .received) (· = taskFs) := ⟨hrest, hmem⟩
  have hw := waits_eq_nothing.2 hrun
  obtain ⟨f, t, hf, ht, hm⟩ := hi.modes
  obtain rfl : f = .apart := by cases hf <;> simp_all
  cases hseen with
  | interrupt hint => simp [hi.ints taskFs (by decide)] at hint
  | took p a hwp hsel hne hw' hmsg =>
    have hwfs : k.waits taskFs = .nothing := by rw [hw', if_neg hne.symm, hw]
    by_cases htty : p = taskTty
    · -- the announcement of a line is taken, and `task_tty` goes on
      subst htty
      cases ht with
      | announcing u tty hsend hplace hline hu =>
        obtain rfl : l.stack.resumeMsg = a := by simp_all
        have hns : h u ≠ .nobody := by simp [hu]
        refine ⟨Function.update h u .fs, hi.change hc (hi.servers_update hns _)
          (hi.clients_frame hc taskFs (fun q hq => .inl hq) (fun q _ htty _ => ?_) (fun _ _ => rfl)
            (fun q _ => update_held hns (by simp [hu]) q) fun hn => absurd rfl hn)
          (fun tty => serves_update (hi.terminals tty) (by simp [hu]) _)
          ⟨.apart, .apart, .line u hwfs rfl ?_ ?_, .runs ?_ ?_, trivial⟩⟩
        · exact (hw' q).trans (if_neg htty)
        · exact (show _ = _ from hmsg) ▸ hline
        · exact Function.update_self _ _ _
        · exact (hw' taskTty).trans (if_pos rfl)
        · exact (show _ = _ from hplace) ▸ trivial
      | answering => exact hm.elim
      | _ => simp_all
    · -- a request is taken out of the queue
      rcases hi.clients p hne htty with
        ⟨hn, -, -⟩ | ⟨m, hn, -, -⟩ | ⟨m, hsend, hask, hown, hu, hreq⟩ | ⟨m, hn, -, -⟩
      · simp_all
      · simp_all
      · obtain rfl : m = a := by simp_all
        have hns : h p ≠ .nobody := by simp [hu]
        refine ⟨Function.update h p .fs, hi.change hc (hi.servers_update hns _)
          (hi.clients_frame hc p (fun q hq => .inl hq) (fun q _ _ hqp => ?_) (fun _ _ => rfl)
            (fun q hqp _ => Function.update_of_ne hqp _ _) fun _ _ => .asked m ?_ hask ?_)
          (fun tty => serves_update (hi.terminals tty) (by simp [hu]) _)
          ⟨.apart, t, .request p hwfs rfl ?_ ?_, ?_, hm⟩⟩
        · exact (hw' q).trans (if_neg hqp)
        · exact (hw' p).trans (if_pos rfl)
        · exact (hc.rest.la p m).symm ▸ hown
        · exact (show _ = _ from hmsg) ▸ hreq
        · exact Function.update_self _ _ _
        · exact hi.tty_frame hc (by decide) ht ((hw' taskTty).trans (if_neg (Ne.symm htty))) rfl
            fun u hau _ => update_holder (by simp [ht.about_line hm hau, hu])
      · simp_all
  | waits hno hw' =>
    refine ⟨h, hi.change hc hi.servers (hi.clients_frame hc taskFs (fun q hq => .inl hq)
      (fun q hfs _ _ => (hw' q).trans (if_neg hfs)) (fun _ _ => rfl) (fun _ _ _ => rfl)
        fun hn => absurd rfl hn) hi.terminals ⟨.apart, t, .waiting ?_ rfl, ?_, hm⟩⟩
    · exact (hw' taskFs).trans (if_pos rfl)
    · exact hi.tty_frame hc (by decide) ht ((hw' taskTty).trans (if_neg (by decide))) rfl
        fun _ _ _ => rfl

theorem fs_forward {k : Kernel} {src : Int} {len : BitVec 32} (hi : SrvInv l s h)
    (hrun : (s.kernel.procTable taskFs).pFlags = 0) (hp : s.fsPlace = .forward src len)
    (hs : sendrec s.kernel taskFs .send (proc2pid taskTty) l.fsMsg = .ok k) :
    ∃ h', SrvInv l ((s.setKernel k).goFs (.await src len)) h' := by
  obtain ⟨hseen, hrest⟩ := send_seen (t := taskTty) hrun hi.fsMsg_owns
    (fun src a hw => hi.owns taskTty (.inr ⟨src, hw⟩)) hs
  have hw := waits_eq_nothing.2 hrun
  obtain ⟨f, t, hf, ht, hm⟩ := hi.modes
  cases hf with
  | forward u len' _ hplace hfor hu =>
    obtain ⟨rfl, rfl⟩ : proc2pid u = src ∧ len' = len := by simpa [hp, eq_comm] using hplace
    have hap : t = .apart := by cases t <;> simp_all [Meet]
    subst hap
    cases hseen with
    | handed src a hwt hsrc hw' hmsg hmem =>
      cases ht with
      | waiting hwt' hplace' =>
        obtain ⟨-, rfl⟩ : any = src ∧ l.stack.msg = a := by simpa [hwt'] using hwt
        have hc : Change l s ((s.setKernel k).goFs (.await (proc2pid u) len'))
          (fun q => q = taskFs ∨ q = taskTty) := ⟨hrest, hmem⟩
        refine ⟨h, hi.change hc hi.servers (hi.clients_frame hc taskFs
          (fun q hq => hq.imp_right .inl) (fun q _ htty _ => (hw' q).trans (if_neg htty))
          (fun _ _ => rfl) (fun _ _ _ => rfl)
            fun hn => absurd rfl hn) hi.terminals
          ⟨.awaits u, .answers u, .await u len' ?_ rfl,
            .request u ((hw' taskTty).trans (if_pos rfl)) hplace' ?_ ?_ hu, rfl⟩⟩
        · exact ((hw' taskFs).trans (if_neg (by decide))).trans hw
        · exact (show _ = _ from hmsg) ▸ ⟨hfor.type, hfor.procNr⟩
        · exact (show _ = _ from hmsg) ▸ rfl
      | _ => simp_all
    | queued hno hw' hmsg hmem =>
      have hc : Change l s ((s.setKernel k).goFs (.await (proc2pid u) len')) (· = taskFs) :=
        ⟨hrest, hmem⟩
      refine ⟨h, hi.change hc hi.servers (hi.clients_frame hc taskFs (fun q hq => .inl hq)
        (fun q hfs _ _ => (hw' q).trans (if_neg hfs)) (fun _ _ => rfl) (fun _ _ _ => rfl)
          fun hn => absurd rfl hn) hi.terminals
        ⟨.forwards u, .apart, .forwarding u len' ((hw' taskFs).trans (if_pos rfl)) rfl ?_ ?_ hu, ?_,
          trivial⟩⟩
      · exact (show _ = _ from hmsg) ▸ ⟨hfor.type, hfor.procNr⟩
      · exact (show _ = _ from hmsg) ▸ rfl
      · exact hi.tty_frame hc (by decide) ht ((hw' taskTty).trans (if_neg (by decide))) rfl nofun
  | _ => simp_all

theorem fs_await {k : Kernel} {src : Int} {len : BitVec 32} (hi : SrvInv l s h)
    (hrun : (s.kernel.procTable taskFs).pFlags = 0) (hp : s.fsPlace = .await src len)
    (hs : sendrec s.kernel taskFs .receive (proc2pid taskTty) l.fsMsg = .ok k) :
    ∃ h', SrvInv l ((s.setKernel k).goFs (.answered src len)) h' := by
  obtain ⟨hseen, hmem, hrest⟩ := receive_seen (t := taskTty) hrun hi.fsMsg_owns
    (fun p d a hw => hi.owns p (.inl ⟨d, hw⟩)) hs
  have hc : Change l s ((s.setKernel k).goFs (.answered src len)) (· = taskFs) := ⟨hrest, hmem⟩
  have hw := waits_eq_nothing.2 hrun
  obtain ⟨f, t, hf, ht, hm⟩ := hi.modes
  cases hf with
  | await u len' _ hplace =>
    obtain ⟨rfl, rfl⟩ : proc2pid u = src ∧ len' = len := by simpa [hp, eq_comm] using hplace
    obtain rfl : t = .answers u := by cases t <;> simp_all [Meet]
    cases hseen with
    | interrupt hint => simp [hi.ints taskFs (by decide)] at hint
    | took p a hwp hsel hne hw' hmsg =>
      obtain rfl : taskTty = p := proc2pid_inj (hsel.resolve_left (by decide))
      cases ht with
      | answering _ hsend hplace' hans =>
        obtain rfl : l.stack.msg = a := by simp_all
        refine ⟨h, hi.change hc hi.servers (hi.clients_frame hc taskFs (fun q hq => .inl hq)
          (fun q _ htty _ => (hw' q).trans (if_neg htty)) (fun _ _ => rfl) (fun _ _ _ => rfl)
            fun hn => absurd rfl hn) hi.terminals
          ⟨.apart, .apart, .answered u len' ?_ rfl ?_,
            .runs ((hw' taskTty).trans (if_pos rfl)) ?_, trivial⟩⟩
        · exact ((hw' taskFs).trans (if_neg (by decide))).trans hw
        · exact (show _ = _ from hmsg) ▸ hans
        · exact (show _ = _ from hplace') ▸ trivial
      | _ => simp_all
    | waits hno hw' =>
      refine ⟨h, hi.change hc hi.servers (hi.clients_frame hc taskFs (fun q hq => .inl hq)
        (fun q hfs _ _ => (hw' q).trans (if_neg hfs)) (fun _ _ => rfl) (fun _ _ _ => rfl)
          fun hn => absurd rfl hn) hi.terminals
        ⟨.awaits u, .answers u, .awaiting u len' ((hw' taskFs).trans (if_pos rfl)) rfl, ?_, rfl⟩⟩
      exact hi.tty_frame hc (by decide) ht ((hw' taskTty).trans (if_neg (by decide))) rfl
        fun _ _ _ => rfl
  | _ => simp_all

theorem fs_reply {k : Kernel} {src : Int} (hi : SrvInv l s h)
    (hrun : (s.kernel.procTable taskFs).pFlags = 0) (hp : s.fsPlace = .reply src)
    (hs : sendrec s.kernel taskFs .send src l.fsMsg = .ok k) :
    ∃ h', SrvInv l ((s.setKernel k).goFs .receive) h' := by
  have hw := waits_eq_nothing.2 hrun
  obtain ⟨f, t, hf, ht, hm⟩ := hi.modes
  cases hf with
  | reply u _ hplace hu =>
    obtain rfl : proc2pid u = src := by simpa [hp, eq_comm] using hplace
    obtain ⟨hseen, hrest⟩ := send_seen (t := taskTty) hrun hi.fsMsg_owns
      (fun src a hw => hi.owns u (.inr ⟨src, hw⟩)) hs
    have hns : h u ≠ .nobody := by simp [hu]
    have hufs : u ≠ taskFs := fun he => hns (he ▸ hi.servers.1)
    have hutty : u ≠ taskTty := fun he => hns (he ▸ hi.servers.2)
    cases hseen with
    | handed src a hwu hsrc hw' hmsg hmem =>
      have hc : Change l s ((s.setKernel k).goFs .receive) (fun q => q = taskFs ∨ q = u) :=
        ⟨hrest, hmem⟩
      rcases hi.clients u hufs hutty with ⟨hn, -, -⟩ | ⟨m, hn, -, -⟩ | ⟨m, hn, -, -, -⟩ |
        ⟨m, hwait, hask, hown⟩
      · simp_all
      · simp_all
      · simp_all
      · refine ⟨Function.update h u .nobody, hi.change hc (hi.servers_update hns _)
          (hi.clients_frame hc u (fun q hq => hq.imp_right .inr)
            (fun q _ _ hqu => (hw' q).trans (if_neg hqu)) (fun _ _ => rfl)
            (fun q hqu _ => Function.update_of_ne hqu _ _) fun _ _ =>
              .idle (.inl ((hw' u).trans (if_pos rfl))) hask (Function.update_self _ _ _))
          (fun tty => serves_update (hi.terminals tty) (by simp [hu]) _)
          ⟨.apart, t, .receive ?_ rfl, ?_, hm⟩⟩
        · exact ((hw' taskFs).trans (if_neg hufs.symm)).trans hw
        · exact hi.tty_frame hc (by simp [hutty.symm]; decide) ht
            ((hw' taskTty).trans (if_neg hutty.symm)) rfl
            fun v hav _ => update_holder (by simp [ht.about_line hm hav, hu])
    | queued hno hw' hmsg hmem =>
      have hc : Change l s ((s.setKernel k).goFs .receive) (· = taskFs) := ⟨hrest, hmem⟩
      refine ⟨h, hi.change hc hi.servers (hi.clients_frame hc taskFs (fun q hq => .inl hq)
        (fun q hfs _ _ => (hw' q).trans (if_neg hfs)) (fun _ _ => rfl) (fun _ _ _ => rfl)
          fun hn => absurd rfl hn) hi.terminals
        ⟨.apart, t, .replying u ((hw' taskFs).trans (if_pos rfl)) rfl hu, ?_, hm⟩⟩
      exact hi.tty_frame hc (by decide) ht ((hw' taskTty).trans (if_neg (by decide))) rfl
        fun _ _ _ => rfl
  | _ => simp_all

theorem fs_step {fs : Fs} (hi : SrvInv l s h) (hrun : (s.kernel.procTable taskFs).pFlags = 0)
    (hk : KeepsApart l s .fs) (hs : s.taskFsStep fs l = some s') : ∃ h', SrvInv l s' h' := by
  have hw := waits_eq_nothing.2 hrun
  unfold Servers.taskFsStep at hs
  cases hp : s.fsPlace with
  | receive =>
    rw [hp] at hs
    obtain ⟨f, t, hf, ht, hm⟩ := hi.modes
    obtain rfl : f = .apart := by cases hf <;> simp_all
    have hi' : SrvInv l (s.setFsMsg l Message.reset) h := by
      have := hi.fs_moves Message.reset ⟨_, t, .receive hw rfl, ht, hm⟩
      rwa [← hp] at this
    obtain ⟨k, hk, rfl⟩ := Option.map_eq_some_iff.1 hs
    exact hi'.fs_receive hrun hp (toOption_eq_some.1 hk)
  | received =>
    rw [hp] at hs
    exact ⟨h, hi.fsDispatch hw hp hk hs⟩
  | forward src len =>
    rw [hp] at hs
    obtain ⟨k, hk, rfl⟩ := Option.map_eq_some_iff.1 hs
    exact hi.fs_forward hrun hp (toOption_eq_some.1 hk)
  | await src len =>
    rw [hp] at hs
    obtain ⟨k, hk, rfl⟩ := Option.map_eq_some_iff.1 hs
    exact hi.fs_await hrun hp (toOption_eq_some.1 hk)
  | answered src len =>
    rw [hp] at hs
    obtain ⟨f, t, hf, ht, hm⟩ := hi.modes
    cases hf with
    | answered u len' _ hplace hu =>
      obtain ⟨rfl, rfl⟩ : proc2pid u = src ∧ len' = len := by simpa [hp, eq_comm] using hplace
      dsimp only at hs
      split_ifs at hs
      obtain rfl := Option.some.inj hs
      exact ⟨h, hi.fsAnswer hw hu ht hm⟩
    | _ => simp_all
  | reply src =>
    rw [hp] at hs
    obtain ⟨k, hk, rfl⟩ := Option.map_eq_some_iff.1 hs
    exact hi.fs_reply hrun hp (toOption_eq_some.1 hk)

/-! ## The steps of `task_tty` -/

/-- `task_tty` goes on without a trap. -/
theorem tty_moves {x : TtySys} (hi : SrvInv l s h)
    (hk : x.kernel.procTable = s.kernel.procTable)
    (hmem : MemOf l.owner S s.kernel.mem x.kernel.mem)
    (hS : ∀ q, S q → q ≠ taskFs ∧ ∀ m, s.kernel.waits q ≠ .toSend (proc2pid taskFs) m)
    (hs : h' taskFs = .nobody ∧ h' taskTty = .nobody)
    (hh : ∀ q, h q = .nobody ∨ h q = .queue → h' q = h q)
    (hterm : ∀ tty, ServesReader h' tty (x.ttyTable tty))
    (hm : ∃ f t, FsIn l s h f ∧ (∀ u, h u = .fs → h' u = .fs ∨ f = .awaits u) ∧
      TtyIn l { s with tty := x } h' t ∧ Meet f t) : SrvInv l { s with tty := x } h' := by
  have hc : Change l s { s with tty := x } S := by
    refine ⟨⟨fun q => ?_, fun q _ hq => ?_⟩, hmem⟩
    · rw [show Servers.kernel { s with tty := x } = x.kernel from rfl, hk]
    · rwa [show Servers.kernel { s with tty := x } = x.kernel from rfl, hk]
  have hw : x.kernel.waits = s.kernel.waits := waits_of_table hk
  obtain ⟨f, t, hf, hfs, ht, hmeet⟩ := hm
  refine hi.change hc hs (fun q hqf hqt => ?_) hterm ⟨f, t, ?_, ht, hmeet⟩
  · exact hi.client_frame hc (fun hq => (hS q hq).2) (hi.clients q hqf hqt) (congrFun hw q) rfl
      (hh q)
  · exact hi.fs_frame hc (fun hq => (hS taskFs hq).1 rfl) hf (congrFun hw taskFs) rfl hfs

theorem serves_of_same {x y : Tty} {tty : Minor} (hs : ServesReader h tty x)
    (hxy : SameRequest x y) :
    ServesReader h tty y := by
  intro hleft
  rw [hxy.caller, hxy.procnr]
  exact hs (hxy.left ▸ hleft)

/-- A step within the loop over the terminals. -/
theorem tty_loops {x : TtySys} (hi : SrvInv l s h)
    (hrun : (s.kernel.procTable taskTty).pFlags = 0) (hp : s.tty.place.InLoop)
    (hk : x.kernel = s.kernel) (hx : x.place.InLoop)
    (hsame : ∀ tty, SameRequest (s.tty.ttyTable tty) (x.ttyTable tty)) :
    SrvInv l { s with tty := x } h := by
  have hw := waits_eq_nothing.2 hrun
  obtain ⟨f, t, hf, ht, hm⟩ := hi.modes
  obtain rfl : t = .apart := by cases ht <;> simp_all [TtyPlace.InLoop]
  refine hi.tty_moves (S := fun _ => False) (by rw [hk]) (by rw [hk]; exact .refl _) nofun
    hi.servers (fun _ _ => rfl) (fun tty => serves_of_same (hi.terminals tty) (hsame tty))
    ⟨f, .apart, hf, fun u hu => .inl hu, .runs ?_ hx, hm⟩
  rw [show Servers.kernel { s with tty := x } = x.kernel from rfl, hk]
  exact hw

theorem endKey_same (x : TtySys) (tty : Minor) (scanCode : Byte) (codeWithE0 : Bool) (e : Minor) :
    SameRequest (x.ttyTable e) ((x.endKey tty scanCode codeWithE0).ttyTable e) := by
  unfold TtySys.endKey
  split
  · exact .refl _
  · exact sameRequest_update _ (sameRequest_inProcess _ _) e

theorem scan_loops {x : TtySys} {tty : Minor} {sc : Scan} (hx : x.place = .scan tty sc) :
    (x.scan tty sc).kernel = x.kernel ∧ (x.scan tty sc).place.InLoop ∧
      ∀ e, SameRequest (x.ttyTable e) ((x.scan tty sc).ttyTable e) := by
  unfold TtySys.scan
  split_ifs
  · exact ⟨rfl, hx ▸ trivial, fun _ => .refl _⟩
  · dsimp only
    split
    · exact ⟨rfl, trivial, fun _ => .refl _⟩
    · exact ⟨(TtySys.endKey_keeps _ _ _ _).2, trivial,
        fun e => endKey_same { x with kbIn := (getByteFromKbuf x.kbIn).2 } tty _ _ e⟩
    · exact ⟨rfl, trivial, fun _ => .refl _⟩

/-- `send_recv(SEND, ..)`, of an answer or of the announcement of a line. -/
theorem tty_send {k : Kernel} {dest : Int} {m : Addr} {back : Option Minor} {place : TtyPlace}
    (hback : place = match back with
      | some tty => .write tty
      | none => .read 0)
    (hi : SrvInv l s h) (hrun : (s.kernel.procTable taskTty).pFlags = 0)
    (hp : s.tty.place = .send dest m back) (hs : sendrec s.kernel taskTty .send dest m = .ok k) :
    ∃ h', SrvInv l { s with tty := { s.tty with kernel := k }.go place } h' := by
  have hw := waits_eq_nothing.2 hrun
  obtain ⟨f, t, hf, ht, hm⟩ := hi.modes
  cases ht with
  | answer u _ hplace hans =>
    obtain ⟨rfl, rfl, rfl⟩ : proc2pid taskFs = dest ∧ l.stack.msg = m ∧ none = back := by
      simpa [hp, eq_comm] using hplace
    obtain rfl : place = .read 0 := hback
    obtain ⟨hseen, hrest⟩ := send_seen (t := taskTty) hrun hi.msg_owns
      (fun src a hw => hi.owns taskFs (.inr ⟨src, hw⟩)) hs
    obtain rfl : f = .awaits u := by cases f <;> simp_all [Meet]
    cases hseen with
    | handed src a hwf hsrc hw' hmsg hmem =>
      have hc : Change l s { s with tty := { s.tty with kernel := k }.go (.read 0) }
        (fun q => q = taskTty ∨ q = taskFs) := ⟨hrest, hmem⟩
      cases hf with
      | awaiting _ len hwait hfs =>
        obtain ⟨-, rfl⟩ : proc2pid taskTty = src ∧ l.fsMsg = a := by simpa [hwait] using hwf
        refine ⟨h, hi.change hc hi.servers (hi.clients_frame hc taskTty
          (fun q hq => hq.elim (fun hq => .inr (.inl hq)) .inl)
          (fun q hqf _ _ => (hw' q).trans (if_neg hqf)) (fun _ _ => rfl) (fun _ _ _ => rfl)
            fun _ hn => absurd rfl hn) hi.terminals
          ⟨.apart, .apart, .answered u len ((hw' taskFs).trans (if_pos rfl)) hfs ?_,
            .runs ?_ trivial, trivial⟩⟩
        · exact (show _ = _ from hmsg) ▸ hans
        · exact ((hw' taskTty).trans (if_neg (by decide))).trans hw
      | _ => simp_all
    | queued hno hw' hmsg hmem =>
      have hc : Change l s { s with tty := { s.tty with kernel := k }.go (.read 0) }
        (· = taskTty) := ⟨hrest, hmem⟩
      refine ⟨h, hi.change hc hi.servers (hi.clients_frame hc taskTty (fun q hq => .inr (.inl hq))
        (fun q _ htty _ => (hw' q).trans (if_neg htty)) (fun _ _ => rfl) (fun _ _ _ => rfl)
          fun _ hn => absurd rfl hn) hi.terminals
        ⟨.awaits u, .answers u, ?_, .answering u ((hw' taskTty).trans (if_pos rfl)) rfl ?_, rfl⟩⟩
      · exact hi.fs_frame hc (by decide) hf ((hw' taskFs).trans (if_neg (by decide))) rfl
          fun _ hu => .inl hu
      · exact (show _ = _ from hmsg) ▸ hans
  | line u tty _ hplace hline hu =>
    obtain ⟨rfl, rfl, rfl⟩ : proc2pid taskFs = dest ∧ l.stack.resumeMsg = m ∧ some tty = back := by
      simpa [hp, eq_comm] using hplace
    obtain rfl : place = .write tty := hback
    obtain ⟨hseen, hrest⟩ := send_seen (t := taskTty) hrun hi.resumeMsg_owns
      (fun src a hw => hi.owns taskFs (.inr ⟨src, hw⟩)) hs
    obtain rfl : f = .apart := by cases f <;> simp_all [Meet]
    have hns : h u ≠ .nobody := by simp [hu]
    cases hseen with
    | handed src a hwf hsrc hw' hmsg hmem =>
      have hc : Change l s { s with tty := { s.tty with kernel := k }.go (.write tty) }
        (fun q => q = taskTty ∨ q = taskFs) := ⟨hrest, hmem⟩
      cases hf with
      | waiting hwait hfs =>
        obtain ⟨-, rfl⟩ : any = src ∧ l.fsMsg = a := by simpa [hwait] using hwf
        refine ⟨Function.update h u .fs, hi.change hc (hi.servers_update hns _)
          (hi.clients_frame hc taskTty (fun q hq => hq.elim (fun hq => .inr (.inl hq)) .inl)
            (fun q hqf _ _ => (hw' q).trans (if_neg hqf)) (fun _ _ => rfl)
            (fun q _ => update_held hns (by simp [hu]) q) fun _ hn => absurd rfl hn)
          (fun tty => serves_update (hi.terminals tty) (by simp [hu]) _)
          ⟨.apart, .apart, .line u ((hw' taskFs).trans (if_pos rfl)) hfs ?_ ?_, .runs ?_ trivial,
            trivial⟩⟩
        · exact (show _ = _ from hmsg) ▸ ⟨hline.type, hline.procNr⟩
        · exact Function.update_self _ _ _
        · exact ((hw' taskTty).trans (if_neg (by decide))).trans hw
      | _ => simp_all
    | queued hno hw' hmsg hmem =>
      have hc : Change l s { s with tty := { s.tty with kernel := k }.go (.write tty) }
        (· = taskTty) := ⟨hrest, hmem⟩
      refine ⟨h, hi.change hc hi.servers (hi.clients_frame hc taskTty (fun q hq => .inr (.inl hq))
        (fun q _ htty _ => (hw' q).trans (if_neg htty)) (fun _ _ => rfl) (fun _ _ _ => rfl)
          fun _ hn => absurd rfl hn) hi.terminals
        ⟨.apart, .announces u, ?_, .announcing u tty ((hw' taskTty).trans (if_pos rfl)) rfl ?_ hu,
          trivial⟩⟩
      · exact hi.fs_frame hc (by decide) hf ((hw' taskFs).trans (if_neg (by decide))) rfl
          fun _ hu => .inl hu
      · exact (show _ = _ from hmsg) ▸ ⟨hline.type, hline.procNr⟩
  | _ => simp_all [TtyPlace.InLoop]

theorem tty_receive {k : Kernel} (hi : SrvInv l s h)
    (hrun : (s.kernel.procTable taskTty).pFlags = 0) (hp : s.tty.place = .receive)
    (hs : sendrec s.kernel taskTty .receive any l.stack.msg = .ok k) :
    ∃ h', SrvInv l { s with tty := { s.tty with kernel := k }.go .received } h' := by
  obtain ⟨hseen, hmem, hrest⟩ := receive_seen (t := taskTty) hrun hi.msg_owns
    (fun p d a hw => hi.owns p (.inl ⟨d, hw⟩)) hs
  have hc : Change l s { s with tty := { s.tty with kernel := k }.go .received } (· = taskTty) :=
    ⟨hrest, hmem⟩
  have hw := waits_eq_nothing.2 hrun
  obtain ⟨f, t, hf, ht, hm⟩ := hi.modes
  obtain rfl : t = .apart := by cases ht <;> simp_all [TtyPlace.InLoop]
  cases hseen with
  | interrupt _ hw' hmsg =>
    refine ⟨h, hi.change hc hi.servers (hi.clients_frame hc taskTty (fun q hq => .inr (.inl hq))
      (fun q _ _ _ => congrFun hw' q) (fun _ _ => rfl) (fun _ _ _ => rfl)
        fun _ hn => absurd rfl hn) hi.terminals
      ⟨f, .apart, ?_, .interrupted ((congrFun hw' taskTty).trans hw) rfl ?_, hm⟩⟩
    · exact hi.fs_frame hc (by decide) hf (congrFun hw' taskFs) rfl fun _ hu => .inl hu
    · exact (show _ = _ from hmsg) ▸ rfl
  | took p a hwp hsel hne hw' hmsg =>
    -- only the file system sends to the terminals
    obtain rfl : p = taskFs := by
      by_contra hfs
      rcases hi.clients p hfs hne with ⟨hn, -, -⟩ | ⟨m, hn, -, -⟩ | ⟨m, hn, -, -, -⟩ | ⟨m, hn, -, -⟩
      · simp_all
      · simp_all
      · have he : proc2pid taskFs = proc2pid taskTty := by simp_all
        exact absurd he (by decide)
      · simp_all
    cases hf with
    | forwarding u len hsend hfs hfor hsrc hu =>
      obtain rfl : l.fsMsg = a := by simp_all
      refine ⟨h, hi.change hc hi.servers (hi.clients_frame hc taskTty (fun q hq => .inr (.inl hq))
        (fun q hqf _ _ => (hw' q).trans (if_neg hqf)) (fun _ _ => rfl) (fun _ _ _ => rfl)
          fun _ hn => absurd rfl hn) hi.terminals
        ⟨.awaits u, .answers u, .await u len ((hw' taskFs).trans (if_pos rfl)) hfs,
          .request u ?_ rfl ?_ ?_ hu, rfl⟩⟩
      · exact ((hw' taskTty).trans (if_neg (by decide))).trans hw
      · exact (show _ = _ from hmsg) ▸ hfor
      · exact (show _ = _ from hmsg) ▸ hsrc
    | replying u hsend _ hu =>
      have he : u = taskTty := proc2pid_inj (by simp_all)
      simp [he, hi.servers.2] at hu
    | _ => simp_all
  | waits hno hw' =>
    refine ⟨h, hi.change hc hi.servers (hi.clients_frame hc taskTty (fun q hq => .inr (.inl hq))
      (fun q _ htty _ => (hw' q).trans (if_neg htty)) (fun _ _ => rfl) (fun _ _ _ => rfl)
        fun _ hn => absurd rfl hn) hi.terminals
      ⟨f, .apart, ?_, .waiting ((hw' taskTty).trans (if_pos rfl)) rfl, hm⟩⟩
    exact hi.fs_frame hc (by decide) hf ((hw' taskFs).trans (if_neg (by decide))) rfl
      fun _ hu => .inl hu

/-- The answer of a terminal to the request of `u`. -/
theorem tty_answers {tty : Minor → Tty} {msg : Message} (hi : SrvInv l s h)
    (hw : s.kernel.waits taskTty = .nothing) (hf : FsIn l s h (.awaits u)) (hu : h u = .fs)
    (hh : ∀ q, q ≠ u → h' q = h q) (hterm : ∀ e, ServesReader h' e (tty e))
    (hans : Answers h' msg u) :
    SrvInv l { s with tty := { s.tty with ttyTable := tty }.answer l.stack (proc2pid taskFs) msg }
      h' := by
  have hne {q : Slot} (hq : h q ≠ .fs) : q ≠ u := fun he => hq (he ▸ hu)
  refine hi.tty_moves (S := (· = taskTty)) rfl (.store (S := (· = taskTty)) hi.msg_owns rfl msg)
    (fun q hq => ⟨hq ▸ by decide, fun m => ?_⟩) ?_ (fun q hq => hh q (hne ?_)) hterm
    ⟨.awaits u, .answers u, hf, fun v hv => ?_, .answer u hw rfl ?_, rfl⟩
  · rw [show q = taskTty from hq, hw]
    nofun
  · obtain ⟨h1, h2⟩ := hi.servers
    exact ⟨(hh _ (hne (by simp [h1]))).trans h1, (hh _ (hne (by simp [h2]))).trans h2⟩
  · rcases hq with hq | hq <;> simp [hq]
  · rcases eq_or_ne v u with rfl | hvu
    · exact .inr rfl
    · exact .inl ((hh v hvu).trans hv)
  · have hload : Kernel.msgAt ({ s.tty with ttyTable := tty }.answer l.stack (proc2pid taskFs)
        msg).kernel taskTty l.stack.msg = msg :=
      Message.load_store s.kernel.mem (s.tty.la l.stack.msg) msg
    exact (congrArg (Answers h' · u) hload).mpr hans

theorem tty_dispatch {x : TtySys} (hi : SrvInv l s h)
    (hrun : (s.kernel.procTable taskTty).pFlags = 0) (hp : s.tty.place = .received)
    (hs : s.tty.dispatch l.stack = .ok x) : ∃ h', SrvInv l { s with tty := x } h' := by
  have hw := waits_eq_nothing.2 hrun
  obtain ⟨f, t, hf, ht, hm⟩ := hi.modes
  simp only [TtySys.dispatch, assert_bind_eq_ok] at hs
  rw [show Message.load s.tty.kernel.mem (s.tty.la l.stack.msg) =
    s.kernel.msgAt taskTty l.stack.msg from rfl] at hs
  obtain ⟨-, hs⟩ := hs
  cases ht with
  | interrupted _ _ htype =>
    obtain rfl : { s.tty with keyPressed := false }.go (.read 0) = x := by
      rw [htype, if_neg (by decide), if_neg (by decide), if_neg (by decide), if_pos rfl] at hs
      exact Except.ok.inj hs
    exact ⟨h, hi.tty_moves (S := fun _ => False) rfl (.refl _) (fun _ hs => hs.elim) hi.servers
      (fun _ _ => rfl) hi.terminals ⟨f, .apart, hf, fun _ hu => .inl hu, .runs hw trivial, hm⟩⟩
  | request u _ _ hfor hsrc hu =>
    obtain rfl : f = .awaits u := by cases f <;> simp_all [Meet]
    obtain ⟨htype, hnr⟩ := hfor
    rw [hsrc, toInt_proc2pid] at hs
    rcases htype with htype | htype
    · rw [htype, if_neg (by decide), if_pos rfl] at hs
      simp only [bind_eq_ok, Except.ok.injEq] at hs
      obtain ⟨tty, -, _, -, la, -, rfl⟩ := hs
      generalize s.kernel.msgAt taskTty l.stack.msg = msg at htype hnr hsrc
      have hserve : ttyServe (s.tty.ttyTable tty) la msg =
          (ttyDoRead (s.tty.ttyTable tty) (proc2pid taskFs) la msg,
            { msg with type := MsgType.suspendProc.code, m3i2 := msg.cnt }) := by
        rw [ttyServe, if_pos htype, hsrc, toInt_proc2pid]
        rfl
      rw [hserve]
      refine ⟨Function.update h u (.tty tty), hi.tty_answers hw hf hu
        (fun q hq => Function.update_of_ne hq _ _) (fun e => ?_) (.inl rfl)⟩
      rcases eq_or_ne e tty with rfl | he
      · rw [Function.update_self]
        exact fun _ => ⟨rfl, u, (congrArg BitVec.toInt hnr).trans (toInt_proc2pid u),
          Function.update_self _ _ _⟩
      · rw [Function.update_of_ne he]
        exact serves_update (hi.terminals e) (by simp [hu]) _
    · rw [htype, if_neg (by decide), if_neg (by decide), if_pos rfl] at hs
      simp only [bind_eq_ok, Except.ok.injEq] at hs
      obtain ⟨tty, -, _, -, la, -, rfl⟩ := hs
      exact ⟨h, hi.tty_answers hw hf hu (fun _ _ => rfl) hi.terminals (.inr hu)⟩
  | _ => simp_all [TtyPlace.InLoop]

/-- The editing of a line keeps the request, and writes at most where the character goes. -/
theorem editLine_edits {x y : Tty} {ch : Byte} {ev : List TtyEvent}
    (he : editLine x ch = .ok (y, ev)) : y.ttyCaller = x.ttyCaller ∧ y.ttyProcnr = x.ttyProcnr ∧
      ∀ stack tty (z : TtySys), ∃ mem, ev.foldl (TtySys.emit stack tty) z = z.setMem mem ∧
        ∀ a, mem a ≠ z.kernel.mem a → space.toInt ≤ ch.toInt ∧ ch.toInt ≤ tilde.toInt ∧
          a = x.ttyReqBuf + x.ttyTransCnt := by
  unfold editLine at he
  split_ifs at he with hprint hback
  · rw [assert_bind_eq_ok] at he
    obtain ⟨-, he⟩ := he
    simp only [Except.ok.injEq, Prod.mk.injEq] at he
    obtain ⟨rfl, rfl⟩ := he
    refine ⟨rfl, rfl, fun stack tty z => ⟨_, rfl, fun a ha => ⟨hprint.1, hprint.2, ?_⟩⟩⟩
    by_contra hne
    exact ha (Function.update_of_ne hne _ _)
  · simp only [Except.ok.injEq, Prod.mk.injEq] at he
    obtain ⟨rfl, rfl⟩ := he
    exact ⟨rfl, rfl, fun stack tty z => ⟨z.kernel.mem, rfl, fun a ha => absurd rfl ha⟩⟩
  · simp only [Except.ok.injEq, Prod.mk.injEq] at he
    obtain ⟨rfl, rfl⟩ := he
    exact ⟨rfl, rfl, fun stack tty z => ⟨z.kernel.mem, rfl, fun a ha => absurd rfl ha⟩⟩

/-- The announcement of a line to `u`, whose request is with the terminal. -/
theorem tty_announces {x : TtySys} {tty : Minor} {msg : Message} (hi : SrvInv l s h)
    (hw : s.kernel.waits taskTty = .nothing) (hf : FsIn l s h .apart) (hu : h u = .tty tty)
    (hk : x.kernel.procTable = s.kernel.procTable)
    (hmem : MemOf l.owner S s.kernel.mem x.kernel.mem)
    (hS : ∀ q, S q → q ≠ taskFs ∧ ∀ m, s.kernel.waits q ≠ .toSend (proc2pid taskFs) m)
    (hterm : ∀ e, ServesReader (Function.update h u .line) e (x.ttyTable e))
    (hline : IsLine msg u) :
    SrvInv l ⟨(x.setMem (Message.store x.kernel.mem (x.la l.stack.resumeMsg) msg)).go
      (.send (proc2pid taskFs) l.stack.resumeMsg (some tty)), s.fsPlace, s.asked⟩
        (Function.update h u .line) := by
  have hns : h u ≠ .nobody := by simp [hu]
  have hla : x.la l.stack.resumeMsg = s.kernel.la taskTty l.stack.resumeMsg := by
    rw [TtySys.la, hk]
    rfl
  refine hi.tty_moves (S := fun q => S q ∨ q = taskTty) hk ?_ (fun q hq => ?_)
    (hi.servers_update hns _) (update_held hns (by simp [hu])) hterm
    ⟨.apart, .announces u, hf, fun v hv => .inl ?_,
      .line u tty ?_ rfl ?_ (Function.update_self _ _ _), trivial⟩
  · refine (hmem.mono fun _ => .inl).trans (.store (S := fun q => S q ∨ q = taskTty) ?_
      (.inr rfl) msg)
    rw [hla]
    exact hi.resumeMsg_owns
  · rcases hq with hq | rfl
    · exact hS q hq
    · rw [hw]
      exact ⟨by decide, nofun⟩
  · exact (update_holder (by simp [hv, hu])).trans hv
  · exact (congrFun (waits_of_table hk) taskTty).trans hw
  · have hload : Kernel.msgAt (x.setMem (Message.store x.kernel.mem (x.la l.stack.resumeMsg)
        msg)).kernel taskTty l.stack.resumeMsg = msg :=
      Message.load_store x.kernel.mem (x.la l.stack.resumeMsg) msg
    exact (congrArg (IsLine · u) hload).mpr hline

theorem tty_writes {x : TtySys} {tty : Minor} (hi : SrvInv l s h)
    (hrun : (s.kernel.procTable taskTty).pFlags = 0) (hp : s.tty.place = .write tty)
    (hcnt : (s.tty.ttyTable tty).inbufCount ≠ 0) (hk : KeepsApart l s .tty)
    (hs : s.tty.writeChar l.stack tty = .ok x) : ∃ h', SrvInv l { s with tty := x } h' := by
  obtain ⟨hends, hstores⟩ := hk tty hp hcnt
  simp only [TtySys.writeChar, bind_eq_ok, Except.ok.injEq] at hs
  obtain ⟨⟨y, ev⟩, htake, rfl⟩ := hs
  have hsame : SameRequest (s.tty.ttyTable tty) (nextChar (s.tty.ttyTable tty)).2 :=
    sameRequest_nextChar _
  unfold takeChar at htake
  split_ifs at htake with hleft
  · have hw := waits_eq_nothing.2 hrun
    obtain ⟨f, t, hf, ht, hm⟩ := hi.modes
    obtain rfl : t = .apart := by cases ht <;> simp_all [TtyPlace.InLoop]
    obtain ⟨⟨z, ev₁⟩, hedit, htake⟩ := bind_eq_ok.1 htake
    obtain ⟨hcaller, hprocnr, hemit⟩ := editLine_edits hedit
    obtain ⟨hcaller', u, hprocnr', hu⟩ := hi.terminals tty (hsame.left ▸ hleft)
    -- a character for the reader goes to memory that nobody has a message in
    let S : Slot → Prop := fun q => q ≠ taskFs ∧ q ≠ taskTty ∧ ¬ Sending (s.kernel.procTable q)
    have hS (q : Slot) (hq : S q) (m : Addr) : s.kernel.waits q ≠ .toSend (proc2pid taskFs) m :=
      fun hsend => hq.2.2 (waits_eq_toSend.1 hsend).1
    dsimp only at htake
    obtain ⟨mem, hfold, hchange⟩ := hemit l.stack tty
      { s.tty with ttyTable := Function.update s.tty.ttyTable tty y }
    have hmem : MemOf l.owner S s.kernel.mem mem := by
      intro a ha
      by_contra hne
      have hheld := hstores a ⟨hleft, hchange a hne⟩
      exact ha (by simpa [S, Servers.Held] using hheld)
    split_ifs at htake with hend
    · rw [assert_bind_eq_ok] at htake
      obtain ⟨-, htake⟩ := htake
      obtain ⟨rfl, rfl⟩ : { z with ttyLeftCnt := 0 } = y ∧ ev₁ ++ [.outChar newline,
          .resume z.ttyCaller z.ttyProcnr z.ttyTransCnt] = ev := by simpa using htake
      have hnf := hends ⟨hleft, (z, ev₁), by rw [hedit]; rfl, hend⟩
      have hap : f = .apart := by
        cases hf with
        | forward u len _ hplace => exact absurd (.inl ⟨_, _, hplace⟩) hnf
        | forwarding u len hsend => exact absurd (.inr (sendsTo_iff.2 ⟨_, hsend⟩)) hnf
        | await | awaiting => exact hm.elim
        | _ => rfl
      subst hap
      have hns : h u ≠ .nobody := by simp [hu]
      have hcaller₁ : z.ttyCaller = proc2pid taskFs := hcaller.trans hcaller'
      have hprocnr₁ : z.ttyProcnr = proc2pid u := hprocnr.trans hprocnr'
      rw [List.foldl_append, hfold]
      simp only [List.foldl_cons, List.foldl_nil, TtySys.emit, hcaller₁, hprocnr₁]
      refine ⟨_, hi.tty_announces (S := S) (x := TtySys.setMem _ mem) hw hf hu rfl hmem
        (fun q hq => ⟨hq.1, hS q hq⟩) (fun e => ?_) ⟨rfl, rfl⟩⟩
      rcases eq_or_ne e tty with rfl | he
      · intro hleft
        refine absurd ?_ hleft
        change (Function.update s.tty.ttyTable e _ e).ttyLeftCnt = 0
        rw [Function.update_self]
      · change ServesReader _ e (Function.update s.tty.ttyTable tty _ e)
        rw [Function.update_of_ne he]
        exact serves_update (hi.terminals e) (by simp [hu, he.symm]) _
    · obtain ⟨rfl, rfl⟩ : z = y ∧ ev₁ = ev := by simpa using htake
      dsimp only
      rw [hfold]
      refine ⟨h, hi.tty_moves (S := S) rfl hmem (fun q hq => ⟨hq.1, hS q hq⟩) hi.servers
        (fun _ _ => rfl) (fun e => ?_) ⟨f, .apart, hf, fun _ hu => .inl hu, .runs hw ?_, hm⟩⟩
      · rcases eq_or_ne e tty with rfl | he
        · change ServesReader h e (Function.update s.tty.ttyTable e z e)
          rw [Function.update_self]
          exact fun _ => ⟨hcaller.trans hcaller', u, hprocnr.trans hprocnr', hu⟩
        · change ServesReader h e (Function.update s.tty.ttyTable tty z e)
          rw [Function.update_of_ne he]
          exact hi.terminals e
      · exact (show _ = _ from hp) ▸ trivial
  · obtain ⟨rfl, rfl⟩ : (nextChar (s.tty.ttyTable tty)).2 = y ∧ [] = ev := by
      simpa using htake
    exact ⟨h, hi.tty_loops hrun (hp ▸ trivial) rfl (hp ▸ trivial) (sameRequest_update _ hsame)⟩

theorem tty_step {x : TtySys} (hi : SrvInv l s h)
    (hrun : (s.kernel.procTable taskTty).pFlags = 0) (hk : KeepsApart l s .tty)
    (hs : s.tty.taskTtyStep l.stack = .ok x) : ∃ h', SrvInv l { s with tty := x } h' := by
  unfold TtySys.taskTtyStep at hs
  cases hp : s.tty.place with
  | read tty =>
    rw [hp] at hs
    dsimp only at hs
    split_ifs at hs
    all_goals
      obtain rfl := Except.ok.inj hs
      exact ⟨h, hi.tty_loops hrun (hp ▸ trivial) rfl trivial fun _ => .refl _⟩
  | scan tty sc =>
    rw [hp] at hs
    obtain rfl := Except.ok.inj hs
    obtain ⟨hkern, hloop, hsame⟩ := scan_loops hp
    exact ⟨h, hi.tty_loops hrun (hp ▸ trivial) hkern hloop hsame⟩
  | write tty =>
    rw [hp] at hs
    dsimp only at hs
    split_ifs at hs with hcnt
    · exact hi.tty_writes hrun hp hcnt hk hs
    · obtain rfl := Except.ok.inj hs
      exact ⟨h, hi.tty_loops hrun (hp ▸ trivial) rfl trivial fun _ => .refl _⟩
  | again tty =>
    rw [hp] at hs
    dsimp only at hs
    split_ifs at hs
    all_goals
      obtain rfl := Except.ok.inj hs
      exact ⟨h, hi.tty_loops hrun (hp ▸ trivial) rfl trivial fun _ => .refl _⟩
  | send dest m back =>
    rw [hp] at hs
    obtain ⟨k, hsend, hs⟩ := bind_eq_ok.1 hs
    obtain rfl := Except.ok.inj hs
    exact tty_send rfl hi hrun hp hsend
  | receive =>
    rw [hp] at hs
    obtain ⟨k, hrec, hs⟩ := bind_eq_ok.1 hs
    obtain rfl := Except.ok.inj hs
    exact hi.tty_receive hrun hp hrec
  | received =>
    rw [hp] at hs
    exact hi.tty_dispatch hrun hp hs

/-! ## The interrupts and the processes -/

theorem clock_step {x : TtySys} (hi : SrvInv l s h) (hs : s.tty.clockHandler = .ok x) :
    SrvInv l { s with tty := x } h := by
  unfold TtySys.clockHandler at hs
  split_ifs at hs
  · obtain ⟨k, hk, hs⟩ := bind_eq_ok.1 hs
    obtain rfl := Except.ok.inj hs
    obtain ⟨hseen, hrest⟩ := inform_seen l.owner (fun src a hw => by
      have := hi.owns taskTty (.inr ⟨src, hw⟩)
      rwa [hi.native.la (by decide)] at this) hk
    obtain ⟨f, t, hf, ht, hm⟩ := hi.modes
    cases hseen with
    | woken src a hwt hw' htype hmem =>
      have hc : Change l s { s with tty := { s.tty with kernel := k } } (· = taskTty) :=
        ⟨hrest, hmem⟩
      cases ht with
      | waiting hwait hplace =>
        obtain ⟨-, rfl⟩ : any = src ∧ l.stack.msg = a := by simpa [hwait] using hwt
        refine hi.change hc hi.servers (hi.clients_frame hc taskTty (fun q hq => .inr (.inl hq))
          (fun q _ htty _ => (hw' q).trans (if_neg htty)) (fun _ _ => rfl) (fun _ _ _ => rfl)
            fun _ hn => absurd rfl hn) hi.terminals
          ⟨f, .apart, ?_, .interrupted ((hw' taskTty).trans (if_pos rfl)) hplace ?_, hm⟩
        · exact hi.fs_frame hc (by decide) hf ((hw' taskFs).trans (if_neg (by decide))) rfl
            fun _ hu => .inl hu
        · have hla : k.la taskTty l.stack.msg = l.stack.msg :=
            (hc.rest.la _ _).trans (hi.native.la (by decide) _)
          exact (congrArg (fun a => (Message.load k.mem a).type) hla).trans htype
      | _ => simp_all
    | pending hw' hmem =>
      have hc : Change l s { s with tty := { s.tty with kernel := k } } (fun _ => False) :=
        ⟨hrest, by
          rw [show Servers.kernel { s with tty := { s.tty with kernel := k } } = k from rfl, hmem]
          exact .refl _⟩
      refine hi.change hc hi.servers (hi.clients_frame hc taskTty nofun
        (fun q _ _ _ => congrFun hw' q) (fun _ _ => rfl) (fun _ _ _ => rfl)
          fun _ hn => absurd rfl hn) hi.terminals ⟨f, t, ?_, ?_, hm⟩
      · exact hi.fs_frame hc id hf (congrFun hw' taskFs) rfl fun _ hu => .inl hu
      · exact hi.tty_frame hc id ht (congrFun hw' taskTty) rfl fun _ _ _ => rfl
  · obtain rfl := Except.ok.inj hs
    exact hi

theorem ne_servers (hp : nrTasks ≤ p.val) : p ≠ taskFs ∧ p ≠ taskTty := by
  constructor
  all_goals
    rintro rfl
    exact absurd hp (by decide)

theorem ask_step {fs : Fs} {k : Kernel} {m : Addr} (hi : SrvInv l s h) (hp : nrTasks ≤ p.val)
    (hask : s.asked p = none) (hown : OwnsMsg l.owner p (s.kernel.la p m))
    (hreq : AsksTerminal fs p (s.kernel.msgAt p m)) (hrun : (s.kernel.procTable p).pFlags = 0)
    (hs : sendrec s.kernel p .send (proc2pid taskFs) m = .ok k) :
    ∃ h', SrvInv l { s.setKernel k with asked := Function.update s.asked p (some m) } h' := by
  obtain ⟨hpfs, hptty⟩ := ne_servers hp
  have hu : h p = .nobody := by
    have hw := waits_eq_nothing.2 hrun
    cases hi.clients p hpfs hptty <;> simp_all
  have hterm (x : Holder) (e : Minor) : ServesReader (Function.update h p x) e (s.tty.ttyTable e) :=
    serves_update (hi.terminals e) (by simp [hu]) x
  have hservers (x : Holder) : Function.update h p x taskFs = .nobody ∧
      Function.update h p x taskTty = .nobody := by
    rw [Function.update_of_ne hpfs.symm, Function.update_of_ne hptty.symm]
    exact hi.servers
  obtain ⟨hseen, hrest⟩ := send_seen (t := taskTty) hrun hown
    (fun src a hw => hi.owns taskFs (.inr ⟨src, hw⟩)) hs
  obtain ⟨f, t, hf, ht, hm⟩ := hi.modes
  have habout (x : Holder) (v : Slot) (hv : h v ≠ .nobody) : Function.update h p x v = h v :=
    update_holder (by rwa [hu])
  cases hseen with
  | handed src a hwf hsrc hw' hmsg hmem =>
    have hc : Change l s { s.setKernel k with asked := Function.update s.asked p (some m) }
      (fun q => q = p ∨ q = taskFs) := ⟨hrest, hmem⟩
    have hsrc' : src ≠ proc2pid taskTty := by
      rintro rfl
      rcases hsrc with hsrc | hsrc
      · exact hptty (proc2pid_inj hsrc).symm
      · exact absurd hsrc (by decide)
    cases hf with
    | waiting hwait hfs =>
      obtain ⟨-, rfl⟩ : any = src ∧ l.fsMsg = a := by simpa [hwait] using hwf
      refine ⟨Function.update h p .fs, hi.change hc (hservers _)
        (hi.clients_frame hc p (fun q hq => hq.elim (fun hq => .inr (.inr hq)) .inl)
          (fun q hqf _ _ => (hw' q).trans (if_neg hqf)) (fun q hqp => Function.update_of_ne hqp _ _)
          (fun q hqp _ => Function.update_of_ne hqp _ _) fun _ _ => .asked m ?_ ?_ ?_)
        (hterm _) ⟨.apart, t, .request p ((hw' taskFs).trans (if_pos rfl)) hfs ?_ ?_, ?_, hm⟩⟩
      · exact ((hw' p).trans (if_neg hpfs)).trans (waits_eq_nothing.2 hrun)
      · exact Function.update_self _ _ _
      · exact (hc.rest.la p m).symm ▸ hown
      · exact (show _ = _ from hmsg) ▸ ⟨rfl, hreq.1⟩
      · exact Function.update_self _ _ _
      · exact hi.tty_frame hc (by simp [hptty.symm]; decide) ht
          ((hw' taskTty).trans (if_neg (by decide))) rfl fun v _ => habout _ v
    | _ => simp_all
  | queued hno hw' hmsg hmem =>
    have hc : Change l s { s.setKernel k with asked := Function.update s.asked p (some m) }
      (· = p) := ⟨hrest, hmem⟩
    refine ⟨Function.update h p .queue, hi.change hc (hservers _)
      (hi.clients_frame hc p (fun q hq => .inr (.inr hq))
        (fun q _ _ hqp => (hw' q).trans (if_neg hqp)) (fun q hqp => Function.update_of_ne hqp _ _)
        (fun q hqp _ => Function.update_of_ne hqp _ _) fun _ _ =>
          .queued m ((hw' p).trans (if_pos rfl)) ?_ ?_ ?_ ?_)
      (hterm _) ⟨f, t, ?_, ?_, hm⟩⟩
    · exact Function.update_self _ _ _
    · exact (hc.rest.la p m).symm ▸ hown
    · exact Function.update_self _ _ _
    · exact (show _ = _ from hmsg) ▸ ⟨rfl, hreq.1⟩
    · exact hi.fs_frame hc hpfs.symm hf ((hw' taskFs).trans (if_neg hpfs.symm)) rfl
        fun v hv => .inl ((habout _ v (by simp [hv])).trans hv)
    · exact hi.tty_frame hc hptty.symm ht ((hw' taskTty).trans (if_neg hptty.symm)) rfl
        fun v _ => habout _ v

theorem await_step {k : Kernel} {m : Addr} (hi : SrvInv l s h) (hp : nrTasks ≤ p.val)
    (hask : s.asked p = some m) (hrun : (s.kernel.procTable p).pFlags = 0)
    (hs : sendrec s.kernel p .receive (proc2pid taskFs) m = .ok k) :
    ∃ h', SrvInv l { s.setKernel k with asked := Function.update s.asked p none } h' := by
  obtain ⟨hpfs, hptty⟩ := ne_servers hp
  have hw := waits_eq_nothing.2 hrun
  have hown : OwnsMsg l.owner p (s.kernel.la p m) := by
    cases hi.clients p hpfs hptty <;> simp_all
  obtain ⟨hseen, hmem, hrest⟩ := receive_seen (t := taskTty) hrun hown
    (fun p d a hw => hi.owns p (.inl ⟨d, hw⟩)) hs
  have hc : Change l s { s.setKernel k with asked := Function.update s.asked p none } (· = p) :=
    ⟨hrest, hmem⟩
  obtain ⟨f, t, hf, ht, hm⟩ := hi.modes
  cases hseen with
  | interrupt hint => simp [hi.ints p hptty] at hint
  | took q a hwq hsel hne hw' hmsg =>
    obtain rfl : taskFs = q := proc2pid_inj (hsel.resolve_left (by decide))
    cases hf with
    | replying u hsend hfs hu =>
      obtain rfl : u = p := proc2pid_inj (by simp_all)
      have hns : h u ≠ .nobody := by simp [hu]
      refine ⟨Function.update h u .nobody, hi.change hc (hi.servers_update hns _)
        (hi.clients_frame hc u (fun q hq => .inr (.inr hq))
          (fun q hqf _ _ => (hw' q).trans (if_neg hqf)) (fun q hqu => Function.update_of_ne hqu _ _)
          (fun q hqu _ => Function.update_of_ne hqu _ _) fun _ _ =>
            .idle (.inl (((hw' u).trans (if_neg hpfs)).trans hw)) (Function.update_self _ _ _)
              (Function.update_self _ _ _))
        (fun e => serves_update (hi.terminals e) (by simp [hu]) _)
        ⟨.apart, t, .receive ((hw' taskFs).trans (if_pos rfl)) hfs, ?_, hm⟩⟩
      exact hi.tty_frame hc hptty.symm ht ((hw' taskTty).trans (if_neg (by decide))) rfl
        fun v hav _ => update_holder (by simp [ht.about_line hm hav, hu])
    | forwarding u len hsend =>
      have he : p = taskTty := proc2pid_inj (by simp_all)
      exact absurd he hptty
    | _ => simp_all
  | waits hno hw' =>
    refine ⟨h, hi.change hc hi.servers (hi.clients_frame hc p (fun q hq => .inr (.inr hq))
      (fun q _ _ hqp => (hw' q).trans (if_neg hqp)) (fun q hqp => Function.update_of_ne hqp _ _)
      (fun _ _ _ => rfl) fun _ _ => .waiting m ((hw' p).trans (if_pos rfl))
        (Function.update_self _ _ _) ?_) hi.terminals ⟨f, t, ?_, ?_, hm⟩⟩
    · exact (hc.rest.la p m).symm ▸ hown
    · exact hi.fs_frame hc hpfs.symm hf ((hw' taskFs).trans (if_neg hpfs.symm)) rfl
        fun _ hu => .inl hu
    · exact hi.tty_frame hc hptty.symm ht ((hw' taskTty).trans (if_neg hptty.symm)) rfl
        fun _ _ _ => rfl

theorem write_step {a : Addr} (hi : SrvInv l s h) (hp : nrTasks ≤ p.val)
    (hrun : (s.kernel.procTable p).pFlags = 0) (hown : l.owner a = p) (v : Byte) :
    SrvInv l { s with tty := s.tty.setMem (Function.update s.kernel.mem a v) } h := by
  obtain ⟨hpfs, hptty⟩ := ne_servers hp
  have hmem : MemOf l.owner (· = p) s.kernel.mem (Function.update s.kernel.mem a v) :=
    fun x hx => Function.update_of_ne (fun he => hx (by rw [he, hown])) _ _
  have hc : Change l s { s with tty := s.tty.setMem (Function.update s.kernel.mem a v) } (· = p) :=
    ⟨⟨fun _ => rfl, fun _ _ hq => hq⟩, hmem⟩
  have hw := waits_eq_nothing.2 hrun
  obtain ⟨f, t, hf, ht, hm⟩ := hi.modes
  refine hi.change hc hi.servers (fun q hqf hqt => ?_) hi.terminals ⟨f, t, ?_, ?_, hm⟩
  · refine hi.client_frame hc (fun hq m => ?_) (hi.clients q hqf hqt) rfl rfl fun _ => rfl
    rw [show q = p from hq, hw]
    nofun
  · exact hi.fs_frame hc hpfs.symm hf rfl rfl fun _ hu => .inl hu
  · exact hi.tty_frame hc hptty.symm ht rfl rfl fun _ _ _ => rfl

theorem keyboard_step (hi : SrvInv l s h) (scanCode : Byte) : SrvInv l { s with tty :=
    { s.tty with kbIn := keyboardHandler s.tty.kbIn scanCode, keyPressed := true } } h := by
  obtain ⟨f, t, hf, ht, hm⟩ := hi.modes
  exact hi.tty_moves (S := fun _ => False) rfl (.refl _) nofun hi.servers (fun _ _ => rfl)
    hi.terminals ⟨f, t, hf, fun _ hu => .inl hu, ht.frame rfl rfl rfl rfl fun _ _ _ => rfl, hm⟩

theorem step {fs : Fs} {a : SrvAct} (hi : SrvInv l s h) (hk : KeepsApart l s a)
    (hs : SrvStep fs l s a s') : ∃ h', SrvInv l s' h' := by
  rw [SrvStep] at hs
  cases a with
  | keyboard scanCode =>
    simp only [srvStep, ttySysStep, Option.map_some, Option.some.injEq] at hs
    subst hs
    exact ⟨h, hi.keyboard_step scanCode⟩
  | clock =>
    simp only [srvStep] at hs
    obtain ⟨x, hx, rfl⟩ := Option.map_eq_some_iff.1 hs
    exact ⟨h, hi.clock_step (toOption_eq_some.1 hx)⟩
  | tty =>
    simp only [srvStep] at hs
    obtain ⟨x, hx, rfl⟩ := Option.map_eq_some_iff.1 hs
    simp only [ttySysStep] at hx
    split_ifs at hx with hrun
    exact hi.tty_step hrun hk (toOption_eq_some.1 hx)
  | fs =>
    simp only [srvStep] at hs
    split_ifs at hs with hrun
    exact hi.fs_step hrun hk hs
  | ask p m =>
    simp only [srvStep, MyOS.step] at hs
    split_ifs at hs with hg hrun
    · obtain ⟨hp, hask, hown, hreq⟩ := hg
      obtain ⟨k, hk, rfl⟩ := Option.map_eq_some_iff.1 hs
      exact hi.ask_step hp hask hown hreq hrun (toOption_eq_some.1 hk)
    · simp at hs
  | await p =>
    simp only [srvStep, MyOS.step] at hs
    split_ifs at hs with hp hrun
    · obtain ⟨m, hask, hs⟩ := Option.bind_eq_some_iff.1 hs
      obtain ⟨k, hk, rfl⟩ := Option.map_eq_some_iff.1 hs
      exact hi.await_step hp hask hrun (toOption_eq_some.1 hk)
    · simp at hs
  | write p a v =>
    simp only [srvStep] at hs
    split_ifs at hs with hg
    obtain ⟨hp, hrun, hown⟩ := hg
    obtain rfl := Option.some.inj hs
    exact ⟨h, hi.write_step hp hrun hown v⟩

theorem start {s : Servers} (hs : SrvStart s) : SrvInv l s fun _ => .nobody := by
  obtain ⟨k, hk, rfl⟩ := hs
  have hwaits (q : Slot) : k.waits q = .nothing ∨ k.waits q = .other := by
    rcases hk.proc q with hq | ⟨hq, -⟩
    · refine .inr ?_
      have hs : ¬ Sending (k.procTable q) := by
        rw [Sending, hq]
        decide
      have hr : ¬ Receiving (k.procTable q) := by
        rw [Receiving, hq]
        decide
      unfold Kernel.waits Proc.waits
      rw [if_neg (by rw [hq]; decide), if_neg hs, if_neg hr]
    · exact .inl (waits_eq_nothing.2 hq)
  refine ⟨hk.native, fun q _ => (hk.queues q).2.2, ⟨rfl, rfl⟩,
    fun q _ _ => .idle (hwaits q) rfl rfl,
    fun _ hleft => absurd rfl hleft, .apart, .apart, .receive ?_ rfl, .runs ?_ trivial, trivial⟩
  · exact waits_eq_nothing.2 (hk.tasks taskFs (by decide))
  · exact waits_eq_nothing.2 (hk.tasks taskTty (by decide))

theorem of_run {fs : Fs} {tr : List SrvAct}
    (hr : Run SrvStart (fun s a s' => SrvStep fs l s a s' ∧ KeepsApart l s a) tr s) :
    ∃ h, SrvInv l s h :=
  hr.invariant (P := fun _ s => ∃ h, SrvInv l s h) (fun _ hs => ⟨_, start hs⟩)
    fun _ _ _ _ ⟨_, hi⟩ ⟨hs, hk⟩ => hi.step hk hs

end SrvInv

/-! ## No cycle -/

/-- A destination that is not blocked in a `SEND`, or in one to another process that is not. -/
def ShortWay (k : Kernel) (src dest : Slot) : Prop :=
  Sending (k.procTable dest) → ∃ e, e ≠ src ∧ (k.procTable dest).pSendto = proc2pid e ∧
    ¬ Sending (k.procTable e)

theorem ShortWay.deadlock {k : Kernel} {src dest : Slot} (hw : ShortWay k src dest) :
    MyOS.deadlock k src dest = .ok false := by
  by_cases hs : Sending (k.procTable dest)
  · obtain ⟨e, hne, hto, hns⟩ := hw hs
    have hs' : (k.procTable dest).pFlags &&& sending ≠ 0 := hs
    have hns' : ¬ (k.procTable e).pFlags &&& sending ≠ 0 := hns
    rw [MyOS.deadlock, show nrTasks + nrProcs = 35 + 1 + 1 from rfl, deadlockLoop, if_pos hs', hto,
      if_neg fun he => hne (proc2pid_inj he), procAt_proc2pid, ok_bind, deadlockLoop, if_neg hns']
  · exact deadlock_of_not_sending (by simpa [Sending] using hs)

theorem ShortWay.noPanic {k : Kernel} {src dest : Slot} (hw : ShortWay k src dest) (m : Addr) :
    msgSend k src (proc2pid dest) m ≠ .error .panic := by
  refine Stops.noPanic ?_
  unfold msgSend
  rw [procAt_proc2pid, ok_bind]
  refine .assert_bind fun _ => ?_
  dsimp only
  rw [ShortWay.deadlock (k := k.note (.call src dest _)) hw, ok_bind, if_neg Bool.false_ne_true]
  split_ifs
  · exact stops_deliver _ _ _ _
  · exact stops_blockSending _ _ _ _

namespace SrvInv

theorem not_sending_of_waits {w : Waits} (hw : s.kernel.waits p = w) (hn : ∀ d m, w ≠ .toSend d m) :
    ¬ Sending (s.kernel.procTable p) :=
  fun hs => hn _ _ (hw.symm.trans (waits_eq_toSend.2 ⟨hs, rfl, rfl⟩))

/-- A process whose request is with `task_fs` waits for the answer, if it waits. -/
theorem client_not_sending (hi : SrvInv l s h) (hu : h u = .fs) :
    ¬ Sending (s.kernel.procTable u) := by
  have hfs : u ≠ taskFs := by
    rintro rfl
    rw [hi.servers.1] at hu
    cases hu
  have htty : u ≠ taskTty := by
    rintro rfl
    rw [hi.servers.2] at hu
    cases hu
  cases hi.clients u hfs htty with
  | idle _ _ h3 => simp [hu] at h3
  | asked m h1 _ _ => exact not_sending_of_waits h1 nofun
  | queued m _ _ _ h4 _ => simp [hu] at h4
  | waiting m h1 _ _ => exact not_sending_of_waits h1 nofun

theorem tty_not_sending (ht : TtyIn l s h .apart) : ¬ Sending (s.kernel.procTable taskTty) := by
  cases ht with
  | runs h1 _ => exact not_sending_of_waits h1 nofun
  | waiting h1 _ => exact not_sending_of_waits h1 nofun
  | interrupted h1 _ _ => exact not_sending_of_waits h1 nofun

/-- Where `task_fs` is blocked in a `SEND`, its destination is not. -/
theorem fs_way (hi : SrvInv l s h) (hp : ∀ u, h u = .fs → u ≠ p)
    (hf : FsIn l s h f) (hm : f = .apart ∨ p ≠ taskTty ∧ TtyIn l s h .apart) :
    ShortWay s.kernel p taskFs := by
  intro hs
  cases hf with
  | receive h1 _ | waiting h1 _ | request _ h1 _ _ _ | line _ h1 _ _ _ | answered _ _ h1 _ _
  | reply _ h1 _ _ | forward _ _ h1 _ _ _ | await _ _ h1 _ | awaiting _ _ h1 _ =>
    exact absurd hs (not_sending_of_waits h1 nofun)
  | replying u h1 _ h3 =>
    exact ⟨u, hp u h3, (waits_eq_toSend.1 h1).2.1, hi.client_not_sending h3⟩
  | forwarding u len h1 _ _ _ _ =>
    obtain ⟨hne, ht⟩ := hm.resolve_left nofun
    exact ⟨taskTty, hne.symm, (waits_eq_toSend.1 h1).2.1, tty_not_sending ht⟩

theorem shortWay (hi : SrvInv l s h) {d : Slot} (hs : s.Sends p d) : ShortWay s.kernel p d := by
  obtain ⟨f, t, hf, ht, hm⟩ := hi.modes
  cases hs with
  | @tty d m back hrun hplace =>
    have htty : ∀ u, h u = .fs → u ≠ taskTty := by
      rintro u hu rfl
      rw [hi.servers.2] at hu
      cases hu
    have hd (d' : Slot) {m' : Addr} {back' : Option Minor}
        (he : s.tty.place = .send (proc2pid d') m' back') : d = d' := by
      exact proc2pid_inj (TtyPlace.send.inj (hplace.symm.trans he)).1
    cases ht with
    | answer u _ h2 _ =>
      obtain rfl := hd taskFs h2
      cases f with
      | awaits v => exact fun hsf => absurd hsf (by
          cases hf with
          | await _ _ h1 _ | awaiting _ _ h1 _ => exact not_sending_of_waits h1 nofun)
      | apart | forwards => exact hm.elim
    | line u tty _ h2 _ _ =>
      obtain rfl := hd taskFs h2
      cases f with
      | apart => exact hi.fs_way htty hf (.inl rfl)
      | forwards | awaits => exact hm.elim
    | runs _ h2 =>
      rw [hplace] at h2
      exact h2.elim
    | waiting _ h2 | interrupted _ h2 _ | request _ _ h2 _ _ _ =>
      rw [hplace] at h2
      cases h2
    | answering _ h1 _ _ | announcing _ _ h1 _ _ _ =>
      rw [waits_eq_nothing.2 hrun] at h1
      cases h1
  | forward hrun hplace =>
    have hw := waits_eq_nothing.2 hrun
    cases hf with
    | forward u len _ _ _ _ =>
      cases t with
      | apart => exact fun hst => absurd hst (tty_not_sending ht)
      | answers | announces => exact hm.elim
    | receive _ h2 | waiting _ h2 | request _ _ h2 _ _ | line _ _ h2 _ _ | answered _ _ _ h2 _
    | reply _ _ h2 _ | replying _ _ h2 _ | await _ _ _ h2 | awaiting _ _ _ h2 =>
      cases hplace.symm.trans h2
    | forwarding _ _ h1 _ _ _ _ => cases hw.symm.trans h1
  | reply hrun hplace =>
    have hw := waits_eq_nothing.2 hrun
    cases hf with
    | reply u _ h2 h3 =>
      obtain rfl := proc2pid_inj (FsPlace.reply.inj (hplace.symm.trans h2))
      exact fun hsu => absurd hsu (hi.client_not_sending h3)
    | receive _ h2 | waiting _ h2 | request _ _ h2 _ _ | line _ _ h2 _ _ | answered _ _ _ h2 _
    | replying _ _ h2 _ | forward _ _ _ h2 _ _ | forwarding _ _ _ h2 _ _ _ | await _ _ _ h2
    | awaiting _ _ _ h2 => cases hplace.symm.trans h2
  | ask hrun hp hask =>
    have hfs : p ≠ taskFs := by
      rintro rfl
      exact absurd hp (by decide)
    have htty : p ≠ taskTty := by
      rintro rfl
      exact absurd hp (by decide)
    have hu : ∀ u, h u = .fs → u ≠ p := by
      rintro u hu rfl
      have hw := waits_eq_nothing.2 hrun
      cases hi.clients u hfs htty with
      | idle _ _ h3 => simp [hu] at h3
      | asked m _ h2 _ | queued m _ h2 _ _ _ => cases hask.symm.trans h2
      | waiting m h1 _ _ => cases hw.symm.trans h1
    cases f with
    | apart => exact hi.fs_way hu hf (.inl rfl)
    | forwards =>
      cases t with
      | apart => exact hi.fs_way hu hf (.inr ⟨htty, ht⟩)
      | answers | announces => exact hm.elim
    | awaits => exact fun hsf => absurd hsf (by
        cases hf with
        | await _ _ h1 _ | awaiting _ _ h1 _ => exact not_sending_of_waits h1 nofun)

theorem not_crossing (hi : SrvInv l s h) : ¬ s.Crossing := by
  rintro (⟨hto, hs⟩ | ⟨hto, hs⟩)
  all_goals
    obtain ⟨e, hne, he, -⟩ := hi.shortWay hs hto.1
    exact hne (proc2pid_inj (he.symm.trans hto.2))

end SrvInv

/-- The servers never send to each other at the same time, and no `SEND` finds a cycle. -/
theorem servers_apart {fs : Fs} {tr : List SrvAct}
    (hr : Run SrvStart (fun s a s' => SrvStep fs l s a s' ∧ KeepsApart l s a) tr s) :
    ¬ s.Crossing ∧ ∀ p d, s.Sends p d → deadlock (save s.kernel) p d = .ok false ∧
      ∀ m, msgSend (save s.kernel) p (proc2pid d) m ≠ .error .panic := by
  obtain ⟨h, hi⟩ := SrvInv.of_run hr
  refine ⟨hi.not_crossing, fun p d hs => ?_⟩
  have hw : ShortWay (save s.kernel) p d := hi.shortWay hs
  exact ⟨hw.deadlock, hw.noPanic⟩

/-! ## Two requests and a key -/

/-- The memory of `task_tty`, of `task_fs`, of `TestA` and of `TestB`. -/
def serverLayout : ServerLayout where
  owner := fun a =>
    if a < 0x2000 then taskTty else if a < 0x3000 then taskFs else if a < 0x5000 then 6 else 7
  stack := twoMsgs
  fsMsg := 0x2000
  fsMsg_owns := by decide
  msg_owns := by decide
  resumeMsg_owns := by decide

/-- Every descriptor is one for the first terminal. -/
def terminalFs : Fs where
  disk := fun _ => 0
  sb := ⟨0, 0, 0, 0⟩
  inodeTable := fun _ => ⟨⟨iCharSpecial, 0, makeDev devCharTty 0, 0⟩, 1, 1⟩
  fDescTable := fun _ => ⟨oRdwr, 0, 1, some 0⟩
  filp := fun _ _ => some 0
  rootInode := 0

/-- A `READ` of one byte of `TestA`, and a `WRITE` of one of `TestB`. -/
def twoRequests : Mem :=
  Message.store
    (Message.store (fun _ => 0) 0x4000
      { Message.reset with type := MsgType.read.code, m3i2 := 1, m3p2 := 0x4800 })
    0x5000 { Message.reset with type := MsgType.write.code, m3i2 := 1, m3p2 := 0x5800 }

theorem calm_kernelMain (mem : Mem) (limit : BitVec 32) : Calm (kernelMain mem limit) where
  kReenter := rfl
  native := NativeBase.start mem limit
  tasks p hp := by
    have hq : ¬ nrTasks + nrNativeProcs ≤ p.val := by omega
    simp only [kernelMain, restart_procTable, kernelMainProc, if_neg hq]
  proc p := (kernelMain_proc mem limit p).2.2.2.imp_right fun ⟨hf, hm, hto, hr⟩ => ⟨hf, hm, hr, hto⟩
  queues p := ⟨(kernelMain_proc mem limit p).1, (kernelMain_proc mem limit p).2.1,
    (kernelMain_proc mem limit p).2.2.1⟩

theorem srvStart_initServers (mem : Mem) : SrvStart (initServers (kernelMain mem 0)) :=
  ⟨_, calm_kernelMain mem 0, rfl⟩

/-- No line is on its way, and nothing is typed. -/
def Quiet (s : Servers) : Prop :=
  (s.kernel.procTable taskTty).pFlags = 0 ∧ s.tty.place.dest = none ∧
    ∀ tty, (s.tty.ttyTable tty).inbufCount = 0

instance (s : Servers) : Decidable (Quiet s) := inferInstanceAs (Decidable (_ ∧ _))

theorem Quiet.keepsApart (hq : Quiet s) (l : ServerLayout) (a : SrvAct) : KeepsApart l s a := by
  obtain ⟨hrun, hplace, hempty⟩ := hq
  cases a with
  | tty => exact fun tty _ hc => absurd (hempty tty) hc
  | fs =>
    rintro - - (⟨dest, m, tty, he⟩ | hto)
    · rw [he] at hplace
      cases hplace
    · exact not_sending_of_runs hrun hto.1
  | keyboard | clock | ask | await | write => trivial

/-- The request of `TestA` waits for the terminals to take it. -/
theorem servers_apart_forwarded : ∃ s tr,
    Run SrvStart (fun s a s' => SrvStep terminalFs serverLayout s a s' ∧
      KeepsApart serverLayout s a) tr s ∧
      SendsTo s.kernel taskFs taskTty ∧ ¬ s.Crossing ∧
        ∀ p d, s.Sends p d → deadlock (save s.kernel) p d = .ok false ∧
          ∀ m, msgSend (save s.kernel) p (proc2pid d) m ≠ .error .panic := by
  have hany : (Run.exec (fun s a => if Quiet s then srvStep terminalFs serverLayout s a else none)
      (initServers (kernelMain twoRequests 0)) [.fs, .ask 6 0x4000, .fs, .fs]).any
      (fun s => (s.kernel.procTable taskFs).pFlags &&& sending ≠ 0 ∧
        (s.kernel.procTable taskFs).pSendto = proc2pid taskTty) = true := by decide +kernel
  obtain ⟨s, hs, hp⟩ := (Option.any_eq_true _ _).1 hany
  have hrun : Run SrvStart
      (fun s a s' => SrvStep terminalFs serverLayout s a s' ∧ KeepsApart serverLayout s a) _ s :=
    (Run.of_exec (.start (srvStart_initServers _)) hs).mono fun s a s' hs => by
      split_ifs at hs with hq
      exact ⟨hs, hq.keepsApart _ _⟩
  have hto := of_decide_eq_true hp
  obtain ⟨hno, hway⟩ := servers_apart hrun
  exact ⟨s, _, hrun, hto, hno, hway⟩

/-- `TestA` reads one byte and is suspended. While `task_fs` takes up the request of `TestB`, an `a`
is typed, which ends the line: each server sends to the other. -/
theorem servers_cross :
    ∃ s tr, Run SrvStart (SrvStep terminalFs serverLayout) tr s ∧ s.Crossing := by
  have hany : (Run.exec (srvStep terminalFs serverLayout) (initServers (kernelMain twoRequests 0))
      (List.replicate 10 .tty ++ [.fs, .ask 6 0x4000, .fs, .fs, .fs, .tty, .tty, .keyboard 0x1E,
        .fs, .fs, .ask 7 0x5000, .fs, .tty, .tty, .fs, .tty])).any
      (fun s => ((s.kernel.procTable taskFs).pFlags &&& sending ≠ 0 ∧
        (s.kernel.procTable taskFs).pSendto = proc2pid taskTty) ∧
          (s.kernel.procTable taskTty).pFlags = 0 ∧ s.tty.place.dest = some (proc2pid taskFs)) =
      true := by decide +kernel
  obtain ⟨s, hs, hp⟩ := (Option.any_eq_true _ _).1 hany
  obtain ⟨hto, hrun, hplace⟩ := of_decide_eq_true hp
  refine ⟨s, _, Run.of_exec (.start (srvStart_initServers _)) hs, .inl ⟨hto, ?_⟩⟩
  generalize hp : s.tty.place = place at hplace
  cases place with
  | send dest m back =>
    obtain rfl := Option.some.inj hplace
    exact .tty hrun hp
  | read | scan | write | again | receive | received => cases hplace

end MyOS
