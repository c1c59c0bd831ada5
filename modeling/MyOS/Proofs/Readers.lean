import MyOS.TtyFs
import MyOS.UserCopies
import MyOS.Proofs.Progress
import MyOS.Proofs.Ipc
import MyOS.Lib.Run

/-!
# Suspended readers

A terminal keeps one request. As long as reads ask for something, of terminals that serve nobody,
each terminal serves just the process that waits for it; a read of nothing waits for ever, and a
second reader of a terminal takes the place of the first.
-/

namespace MyOS

open Memory

variable {s s' : Terminals} {t t' : Tty} {p : Slot} {dev : Minor}

/-- The readers whose replies are kept back are the ones the terminals serve. -/
def Recorded (s : Terminals) : Prop :=
  ∀ p dev, s.suspended p = some dev →
    (s.ttyTable dev).ttyProcnr = proc2pid p ∧ 0 < (s.ttyTable dev).ttyLeftCnt.toInt

/-- Whatever is typed, the process is resumed by the end of the line. -/
def LineResumes (t : Tty) (p : Slot) : Prop :=
  t.ttyReqBuf ≠ 0 → ∀ line, ∃ cnt,
    .resume (proc2pid taskFs) (proc2pid p) cnt ∈ typed (line ++ [newline]) t

/-- A read asks for something, and of a terminal that serves nobody. -/
def TtyOk (s : Terminals) : TtyAct → Prop
  | .rdwt _ true dev _ msg => msg.cnt ≠ 0 ∧ (s.ttyTable dev).ttyLeftCnt = 0
  | _ => True

instance (s : Terminals) : ∀ a, Decidable (TtyOk s a)
  | .rdwt _ true dev _ msg =>
    inferInstanceAs (Decidable (msg.cnt ≠ 0 ∧ (s.ttyTable dev).ttyLeftCnt = 0))
  | .rdwt _ false _ _ _ => .isTrue trivial
  | .key _ => .isTrue trivial
  | .char _ => .isTrue trivial

/-! ## One terminal -/

/-- The terminal serves `p`: what is left to read and what has been read are a count. -/
structure Serving (t : Tty) (p : Slot) : Prop where
  caller : t.ttyCaller = proc2pid taskFs
  procnr : t.ttyProcnr = proc2pid p
  left : t.ttyLeftCnt ≠ 0
  count : t.ttyTransCnt.toNat + t.ttyLeftCnt.toNat < 2 ^ 31

/-- Two states of a terminal with the same request. -/
structure SameRequest (t t' : Tty) : Prop where
  caller : t'.ttyCaller = t.ttyCaller
  procnr : t'.ttyProcnr = t.ttyProcnr
  left : t'.ttyLeftCnt = t.ttyLeftCnt
  trans : t'.ttyTransCnt = t.ttyTransCnt

theorem Serving.of_same (h : Serving t p) (hs : SameRequest t t') : Serving t' p :=
  ⟨hs.caller.trans h.caller, hs.procnr.trans h.procnr, hs.left ▸ h.left, by
    rw [hs.trans, hs.left]
    exact h.count⟩

theorem SameRequest.refl (t : Tty) : SameRequest t t := ⟨rfl, rfl, rfl, rfl⟩

theorem sameRequest_putKey (t : Tty) (key : BitVec 32) : SameRequest t (putKey t key) := by
  unfold putKey
  split <;> exact ⟨rfl, rfl, rfl, rfl⟩

theorem sameRequest_inProcess (t : Tty) (key : BitVec 32) :
    SameRequest t (inProcess t key).1 := by
  unfold inProcess
  dsimp only
  split_ifs
  · exact sameRequest_putKey t key
  · exact sameRequest_putKey t _
  · exact sameRequest_putKey t _
  · exact .refl t
  · exact .refl t

theorem sameRequest_update (f : Minor → Tty) {dev : Minor} (h : SameRequest (f dev) t)
    (e : Minor) : SameRequest (f e) (Function.update f dev t e) := by
  by_cases hed : e = dev
  · subst hed
    rw [Function.update_self]
    exact h
  · rw [Function.update_of_ne hed]
    exact .refl _

theorem sameRequest_update_of_ne (f : Minor → Tty) {dev e : Minor} (hed : e ≠ dev) (t : Tty) :
    SameRequest (f e) (Function.update f dev t e) := by
  rw [Function.update_of_ne hed]
  exact .refl _

theorem sameRequest_nextChar (t : Tty) : SameRequest t (nextChar t).2 := ⟨rfl, rfl, rfl, rfl⟩

/-- The editing of a line keeps the count of the request, and sends nothing. -/
theorem Serving.editLine {ch : Byte} {ev : List TtyEvent} (h : Serving t p)
    (he : MyOS.editLine t ch = .ok (t', ev)) :
    t'.ttyCaller = t.ttyCaller ∧ t'.ttyProcnr = t.ttyProcnr ∧ t'.ttyReqBuf = t.ttyReqBuf ∧
      t'.ttyTransCnt.toNat + t'.ttyLeftCnt.toNat < 2 ^ 31 ∧
      ∀ w, ev.foldl resumeProc w = w := by
  have hcount := h.count
  have hleft := h.left
  unfold MyOS.editLine at he
  split_ifs at he with hprint hback
  · rw [assert_bind_eq_ok] at he
    obtain ⟨-, he⟩ := he
    simp only [Except.ok.injEq, Prod.mk.injEq] at he
    obtain ⟨rfl, rfl⟩ := he
    refine ⟨rfl, rfl, rfl, ?_, fun w => rfl⟩
    dsimp only
    bv_omega
  · simp only [Except.ok.injEq, Prod.mk.injEq] at he
    obtain ⟨rfl, rfl⟩ := he
    have htrans := hback.2
    refine ⟨rfl, rfl, rfl, ?_, fun w => rfl⟩
    dsimp only
    bv_omega
  · simp only [Except.ok.injEq, Prod.mk.injEq] at he
    obtain ⟨rfl, rfl⟩ := he
    exact ⟨rfl, rfl, rfl, hcount, fun w => rfl⟩

theorem takeChar_idle (h : t.ttyLeftCnt = 0) (ch : Byte) : takeChar t ch = .ok (t, []) := by
  unfold takeChar
  rw [if_neg (not_not.2 h)]

/-- A character leaves a terminal serving its process, or it resumes the process. -/
theorem Serving.takeChar {ch : Byte} {ev : List TtyEvent} (h : Serving t p)
    (he : MyOS.takeChar t ch = .ok (t', ev)) :
    t'.ttyReqBuf = t.ttyReqBuf ∧
    (ch ≠ newline ∧ Serving t' p ∧ (∀ w, ev.foldl resumeProc w = w) ∨
      t'.ttyLeftCnt = 0 ∧ (∃ cnt, .resume (proc2pid taskFs) (proc2pid p) cnt ∈ ev) ∧
        ∀ w q, ev.foldl resumeProc w q = if q = p then none else w q) := by
  unfold MyOS.takeChar at he
  rw [if_pos h.left] at he
  obtain ⟨⟨t₁, ev₁⟩, hedit, he⟩ := bind_eq_ok.1 he
  obtain ⟨hcaller, hprocnr, hbuf, hcount, hev⟩ := h.editLine hedit
  rw [h.caller] at hcaller
  rw [h.procnr] at hprocnr
  dsimp only at he
  split_ifs at he with hend
  · rw [assert_bind_eq_ok] at he
    obtain ⟨-, he⟩ := he
    simp only [Except.ok.injEq, Prod.mk.injEq] at he
    obtain ⟨rfl, rfl⟩ := he
    refine ⟨hbuf, .inr ⟨rfl, ⟨t₁.ttyTransCnt, ?_⟩, fun w q => ?_⟩⟩
    · simp [hcaller, hprocnr]
    · rw [List.foldl_append, hev]
      simp only [List.foldl_cons, List.foldl_nil, resumeProc, hcaller, hprocnr, true_and]
      exact if_congr ⟨fun hq => (proc2pid_inj hq).symm, fun hq => by rw [hq]⟩ rfl rfl
  · simp only [Except.ok.injEq, Prod.mk.injEq] at he
    obtain ⟨rfl, rfl⟩ := he
    rw [not_or] at hend
    exact ⟨hbuf, .inl ⟨hend.1, ⟨hcaller, hprocnr, hend.2, hcount⟩, hev⟩⟩

/-- A terminal with a buffer takes every character. -/
theorem Serving.takeChar_ok (h : Serving t p) (hbuf : t.ttyReqBuf ≠ 0) (ch : Byte) :
    ∃ t' ev, MyOS.takeChar t ch = .ok (t', ev) := by
  have hedit : ∃ t₁ ev₁, MyOS.editLine t ch = .ok (t₁, ev₁) := by
    unfold MyOS.editLine
    split_ifs
    · rw [assert_of hbuf]
      exact ⟨_, _, rfl⟩
    · exact ⟨_, _, rfl⟩
    · exact ⟨_, _, rfl⟩
  obtain ⟨t₁, ev₁, hedit⟩ := hedit
  have hprocnr := (h.editLine hedit).2.1.trans h.procnr
  unfold MyOS.takeChar
  rw [if_pos h.left, hedit]
  simp only [bind, Except.bind]
  split_ifs
  · rw [hprocnr, assert_of (proc2pid_ne_noTask p)]
    exact ⟨_, _, rfl⟩
  · exact ⟨_, _, rfl⟩

/-- The line is gone through, up to the character that resumes. -/
theorem Serving.lineResumes (h : Serving t p) : LineResumes t p := by
  intro hbuf line
  induction line generalizing t with
  | nil =>
    obtain ⟨t', ev, he⟩ := h.takeChar_ok hbuf newline
    rcases (h.takeChar he).2 with ⟨hne, -⟩ | ⟨-, ⟨cnt, hmem⟩, -⟩
    · exact absurd rfl hne
    · refine ⟨cnt, ?_⟩
      rw [List.nil_append, typed, he]
      exact List.mem_append_left _ hmem
  | cons ch line ih =>
    obtain ⟨t', ev, he⟩ := h.takeChar_ok hbuf ch
    obtain ⟨hbuf', hcase⟩ := h.takeChar he
    rw [List.cons_append, typed, he]
    rcases hcase with ⟨-, hserves, -⟩ | ⟨-, ⟨cnt, hmem⟩, -⟩
    · obtain ⟨cnt, hmem⟩ := ih hserves (hbuf' ▸ hbuf)
      exact ⟨cnt, List.mem_append_right _ hmem⟩
    · exact ⟨cnt, List.mem_append_left _ hmem⟩

/-! ## All terminals -/

/-- A terminal serves nobody, and nobody waits for it, or it serves the only process that does. -/
def Attended (s : Terminals) (dev : Minor) : Prop :=
  (s.ttyTable dev).ttyLeftCnt = 0 ∧ (∀ q, s.suspended q ≠ some dev) ∨
    ∃ p, Serving (s.ttyTable dev) p ∧ ∀ q, s.suspended q = some dev ↔ q = p

theorem attended_start (dev : Minor) : Attended initTerminals dev :=
  .inl ⟨rfl, fun _ => nofun⟩

theorem Attended.of_same (h : Attended s dev)
    (ht : SameRequest (s.ttyTable dev) (s'.ttyTable dev))
    (hs : ∀ q, s'.suspended q = some dev ↔ s.suspended q = some dev) : Attended s' dev := by
  rcases h with ⟨hleft, hnone⟩ | ⟨p, hserves, hwaits⟩
  · exact .inl ⟨ht.left.trans hleft, fun q hq => hnone q ((hs q).1 hq)⟩
  · exact .inr ⟨p, hserves.of_same ht, fun q => (hs q).trans (hwaits q)⟩

theorem Attended.serving (h : Attended s dev) (hp : s.suspended p = some dev) :
    Serving (s.ttyTable dev) p := by
  rcases h with ⟨-, hnone⟩ | ⟨q, hserves, hwaits⟩
  · exact absurd hp (hnone p)
  · obtain rfl := (hwaits p).1 hp
    exact hserves

theorem recorded_of_attended (h : ∀ dev, Attended s dev) : Recorded s := by
  intro p dev hp
  have hserves := (h dev).serving hp
  have hleft := hserves.left
  have hcount := hserves.count
  refine ⟨hserves.procnr, ?_⟩
  rw [BitVec.toInt_eq_toNat_of_lt (by omega)]
  bv_omega

theorem ttyServe_read (t : Tty) (src : Slot) (dev : Minor) (la : Addr) (msg : Message) :
    ttyServe t la (devMsg src true dev msg) =
      (ttyDoRead t (proc2pid taskFs) la (devMsg src true dev msg),
        { devMsg src true dev msg with type := MsgType.suspendProc.code }) := by
  have htype : (devMsg src true dev msg).type = MsgType.devRead.code := rfl
  have hsource : (devMsg src true dev msg).source.toInt = proc2pid taskFs := by
    change (BitVec.ofInt 32 (proc2pid taskFs)).toInt = proc2pid taskFs
    decide
  unfold ttyServe
  rw [if_pos htype]
  dsimp only
  rw [hsource]
  rfl

theorem ttyServe_write (t : Tty) (src : Slot) (dev : Minor) (la : Addr) (msg : Message) :
    ttyServe t la (devMsg src false dev msg) =
      (t, { devMsg src false dev msg with type := MsgType.syscallRet.code }) := by
  have htype : (devMsg src false dev msg).type ≠ MsgType.devRead.code := by
    change MsgType.devWrite.code ≠ MsgType.devRead.code
    decide
  unfold ttyServe
  rw [if_neg htype]

/-- The answer to a request has its count, so that the assert of `do_rdwt` holds. -/
theorem ttyRdwt_eq (s : Terminals) (src : Slot) (isRead : Bool) (dev : Minor) (la : Addr)
    (msg : Message) : ttyRdwt s src isRead dev la msg = .ok (if isRead then
      { s with
        ttyTable := Function.update s.ttyTable dev
          (ttyDoRead (s.ttyTable dev) (proc2pid taskFs) la (devMsg src true dev msg))
        suspended := Function.update s.suspended src (some dev) }
      else s) := by
  have hcnt (type : BitVec 32) :
      assert (({ devMsg src isRead dev msg with type } : Message).cnt = msg.cnt) = .ok () :=
    assert_of rfl
  have hne : MsgType.syscallRet.code ≠ MsgType.suspendProc.code := by decide
  unfold ttyRdwt
  cases isRead with
  | true =>
    rw [ttyServe_read]
    simp only [hcnt, ok_bind, ne_eq, not_true, if_false, if_true]
  | false =>
    rw [ttyServe_write]
    simp only [hcnt, ok_bind, if_pos hne, Function.update_eq_self]
    rfl

theorem serving_ttyDoRead (t : Tty) (src : Slot) (dev : Minor) (la : Addr) {msg : Message}
    (hcnt : 0 ≤ msg.cnt.toInt) (hne : msg.cnt ≠ 0) :
    Serving (ttyDoRead t (proc2pid taskFs) la (devMsg src true dev msg)) src where
  caller := rfl
  procnr := toInt_proc2pid src
  left := hne
  count := by
    change 0 + msg.cnt.toNat < 2 ^ 31
    rw [BitVec.toInt_eq_toNat_cond] at hcnt
    omega

theorem ttyDevWrite_ok (he : ttyDevWrite s dev = .ok s') : ∃ t ev,
    takeChar (nextChar (s.ttyTable dev)).2 (nextChar (s.ttyTable dev)).1 = .ok (t, ev) ∧
      s' = { s with
        ttyTable := Function.update s.ttyTable dev t
        suspended := ev.foldl resumeProc s.suspended } := by
  obtain ⟨⟨t, ev⟩, hch, he⟩ := bind_eq_ok.1 he
  exact ⟨t, ev, hch, (Except.ok.inj he).symm⟩

/-- A character of a terminal that is attended to leaves it so, and the others as they are. -/
theorem Attended.ttyDevWrite {dev e : Minor} (h : ∀ dev, Attended s dev)
    (he : ttyDevWrite s dev = .ok s') : Attended s' e := by
  obtain ⟨t₁, ev, hch, rfl⟩ := ttyDevWrite_ok he
  rcases h dev with ⟨hleft, hnone⟩ | ⟨p, hserves, hwaits⟩
  · have hleft' : (nextChar (s.ttyTable dev)).2.ttyLeftCnt = 0 := hleft
    rw [takeChar_idle hleft'] at hch
    simp only [Except.ok.injEq, Prod.mk.injEq] at hch
    obtain ⟨rfl, rfl⟩ := hch
    exact (h e).of_same (sameRequest_update _ (sameRequest_nextChar _) e) fun _ => Iff.rfl
  · obtain ⟨-, hcase⟩ := (hserves.of_same (sameRequest_nextChar _)).takeChar hch
    by_cases hed : e = dev
    · subst hed
      rcases hcase with ⟨-, hserves', hev⟩ | ⟨hleft, -, hev⟩
      · refine .inr ⟨p, ?_, fun q => ?_⟩
        · dsimp only
          rw [Function.update_self]
          exact hserves'
        · dsimp only
          rw [hev]
          exact hwaits q
      · refine .inl ⟨?_, fun q hq => ?_⟩
        · dsimp only
          rw [Function.update_self]
          exact hleft
        · dsimp only at hq
          rw [hev] at hq
          split_ifs at hq with hqp
          exact hqp ((hwaits q).1 hq)
    · refine (h e).of_same (sameRequest_update_of_ne _ hed _) fun q => ?_
      dsimp only
      rcases hcase with ⟨-, -, hev⟩ | ⟨-, -, hev⟩
      · rw [hev]
      · rw [hev]
        split_ifs with hqp
        · subst hqp
          -- the process resumed waits for `dev`
          rw [(hwaits q).2 rfl]
          exact ⟨nofun, fun hd => absurd (Option.some.inj hd).symm hed⟩
        · exact Iff.rfl

theorem Attended.ttyDevRead (h : ∀ dev, Attended s dev) (key : BitVec 32) :
    Attended (ttyDevRead s key) dev :=
  (h dev).of_same (sameRequest_update _ (sameRequest_inProcess _ _) dev) fun _ => Iff.rfl

/-- A read that the condition lets through makes its terminal serve the reader. -/
theorem Attended.read {src : Slot} {la : Addr} {msg : Message} {e : Minor}
    (h : ∀ dev, Attended s dev) (hsrc : s.suspended src = none) (hcnt : 0 ≤ msg.cnt.toInt)
    (hne : msg.cnt ≠ 0) (hleft : (s.ttyTable dev).ttyLeftCnt = 0) :
    Attended { s with
      ttyTable := Function.update s.ttyTable dev
        (ttyDoRead (s.ttyTable dev) (proc2pid taskFs) la (devMsg src true dev msg))
      suspended := Function.update s.suspended src (some dev) } e := by
  by_cases hed : e = dev
  · subst hed
    refine .inr ⟨src, ?_, fun q => ?_⟩
    · dsimp only
      rw [Function.update_self]
      exact serving_ttyDoRead _ src e la hcnt hne
    · dsimp only
      rw [Function.update_apply]
      split_ifs with hq
      · exact iff_of_true rfl hq
      · refine iff_of_false (fun hw => ?_) hq
        exact absurd hleft ((h e).serving hw).left
  · refine (h e).of_same (sameRequest_update_of_ne _ hed _) fun q => ?_
    dsimp only
    rw [Function.update_apply]
    split_ifs with hq
    · subst hq
      rw [hsrc]
      exact ⟨fun hd => absurd (Option.some.inj hd).symm hed, nofun⟩
    · exact Iff.rfl

theorem ttyStep_rdwt {src : Slot} {isRead : Bool} {la : Addr} {msg : Message}
    (hs : TtyStep s (.rdwt src isRead dev la msg) s') :
    s.suspended src = none ∧ 0 ≤ msg.cnt.toInt ∧ s' = if isRead then
      { s with
        ttyTable := Function.update s.ttyTable dev
          (ttyDoRead (s.ttyTable dev) (proc2pid taskFs) la (devMsg src true dev msg))
        suspended := Function.update s.suspended src (some dev) }
      else s := by
  unfold TtyStep ttyStep at hs
  dsimp only at hs
  split_ifs at hs with hguard
  rw [ttyRdwt_eq] at hs
  exact ⟨hguard.1, hguard.2, (Option.some.inj hs).symm⟩

theorem attended_step {a : TtyAct} (h : ∀ dev, Attended s dev) (hs : TtyStep s a s')
    (hok : TtyOk s a) : ∀ dev, Attended s' dev := by
  intro e
  cases a with
  | rdwt src isRead dev la msg =>
    obtain ⟨hsrc, hcnt, rfl⟩ := ttyStep_rdwt hs
    cases isRead with
    | true => exact Attended.read h hsrc hcnt hok.1 hok.2
    | false => exact h e
  | key key =>
    obtain rfl := Option.some.inj hs
    exact Attended.ttyDevRead h key
  | char dev =>
    unfold TtyStep ttyStep at hs
    dsimp only at hs
    split_ifs at hs
    exact Attended.ttyDevWrite h (toOption_eq_some.1 hs)

/-- A read of nothing is not recorded, and a second reader puts the first one out. -/
theorem ok_of_recorded {a : TtyAct} (h : ∀ dev, Attended s dev) (hs : TtyStep s a s')
    (hrec : Recorded s') : TtyOk s a := by
  cases a with
  | rdwt src isRead dev la msg =>
    obtain ⟨hsrc, hcnt, rfl⟩ := ttyStep_rdwt hs
    cases isRead with
    | false => trivial
    | true =>
      obtain ⟨hproc, hleft⟩ := hrec src dev (by simp)
      simp only [if_true, Function.update_self, ttyDoRead, devMsg] at hproc hleft
      refine ⟨fun h0 => ?_, ?_⟩
      · rw [h0] at hleft
        exact absurd hleft (by decide)
      · rcases h dev with ⟨hleft, -⟩ | ⟨p, -, hwaits⟩
        · exact hleft
        · have hp := (hwaits p).2 rfl
          have hne : p ≠ src := by
            rintro rfl
            exact nomatch hsrc.symm.trans hp
          obtain ⟨hproc', -⟩ := hrec p dev (by simp [hne, hp])
          simp only [if_true, Function.update_self, ttyDoRead, devMsg] at hproc'
          exact absurd (proc2pid_inj (hproc'.symm.trans hproc)) hne
  | key => trivial
  | char => trivial

/-- In every run whose reads ask for something, of terminals that serve nobody, each reader kept
waiting is recorded, and a line resumes it; a further step leaves it so just where it meets the
condition too. -/
theorem readers_recorded {l : List TtyAct}
    (h : Run TtyStart (fun s a s' => TtyStep s a s' ∧ TtyOk s a) l s) :
    Recorded s ∧ (∀ p dev, s.suspended p = some dev → LineResumes (s.ttyTable dev) p) ∧
      ∀ a s', TtyStep s a s' → (Recorded s' ↔ TtyOk s a) := by
  have hatt : ∀ dev, Attended s dev := by
    refine h.invariant (P := fun _ s => ∀ dev, Attended s dev) ?_ ?_
    · rintro _ rfl
      exact attended_start
    · rintro _ s a s' hatt ⟨hs, hok⟩
      exact attended_step hatt hs hok
  refine ⟨recorded_of_attended hatt, fun p dev hp => ((hatt dev).serving hp).lineResumes, ?_⟩
  intro a s' hs
  exact ⟨ok_of_recorded hatt hs, fun hok => recorded_of_attended (attended_step hatt hs hok)⟩

/-- A request for `n` bytes. -/
def asksFor (n : BitVec 32) : Message := { Message.reset with m3i2 := n }

/-- Process 9 reads a line, an `a` and Enter are typed, and process 10 reads the next one. -/
theorem readers_recorded_lines : ∃ s l,
    Run TtyStart (fun s a s' => TtyStep s a s' ∧ TtyOk s a) l s ∧
    s.suspended 9 = none ∧ s.suspended 10 = some 0 ∧
    Recorded s ∧ (∀ p dev, s.suspended p = some dev → LineResumes (s.ttyTable dev) p) ∧
      ∀ a s', TtyStep s a s' → (Recorded s' ↔ TtyOk s a) := by
  have hany : (Run.exec (fun s a => if TtyOk s a then ttyStep s a else none) initTerminals
      [.rdwt 9 true 0 0x1000 (asksFor 80), .key 0x61, .char 0, .key keyEnter, .char 0,
        .rdwt 10 true 0 0x2000 (asksFor 80)]).any
      (fun s => s.suspended 9 = none ∧ s.suspended 10 = some 0) = true := by decide
  obtain ⟨s, hs, hp⟩ := (Option.any_eq_true _ _).1 hany
  have hrun : Run TtyStart (fun s a s' => TtyStep s a s' ∧ TtyOk s a) _ s :=
    (Run.of_exec (.start (show TtyStart _ from rfl)) hs).mono fun s a s' hs => by
      split_ifs at hs with hok
      exact ⟨hs, hok⟩
  obtain ⟨h9, h10⟩ := of_decide_eq_true hp
  exact ⟨s, _, hrun, h9, h10, readers_recorded hrun⟩

/-- Processes 9 and 10 read terminal 0, and nobody remembers process 9; a process that asks for no
bytes of terminal 1 waits for nothing. -/
theorem reader_put_out :
    (∃ s l, Run TtyStart TtyStep l s ∧ s.suspended 9 = some 0 ∧
      (s.ttyTable 0).ttyProcnr ≠ proc2pid 9 ∧ ¬ Recorded s) ∧
    ∃ s l, Run TtyStart TtyStep l s ∧ s.suspended 9 = some 1 ∧
      (s.ttyTable 1).ttyLeftCnt.toInt = 0 ∧ ¬ Recorded s := by
  constructor
  · have hany : (Run.exec ttyStep initTerminals
        [.rdwt 9 true 0 0x1000 (asksFor 80), .rdwt 10 true 0 0x2000 (asksFor 80)]).any
        (fun s => s.suspended 9 = some 0 ∧ (s.ttyTable 0).ttyProcnr ≠ proc2pid 9) = true := by
      decide
    obtain ⟨s, hs, hp⟩ := (Option.any_eq_true _ _).1 hany
    obtain ⟨hwaits, hproc⟩ := of_decide_eq_true hp
    exact ⟨s, _, Run.of_exec (.start (show TtyStart _ from rfl)) hs, hwaits, hproc,
      fun hrec => hproc (hrec 9 0 hwaits).1⟩
  · have hany : (Run.exec ttyStep initTerminals [.rdwt 9 true 1 0x1000 (asksFor 0)]).any
        (fun s => s.suspended 9 = some 1 ∧ (s.ttyTable 1).ttyLeftCnt.toInt = 0) = true := by
      decide
    obtain ⟨s, hs, hp⟩ := (Option.any_eq_true _ _).1 hany
    obtain ⟨hwaits, hleft⟩ := of_decide_eq_true hp
    exact ⟨s, _, Run.of_exec (.start (show TtyStart _ from rfl)) hs, hwaits, hleft,
      fun hrec => absurd (hrec 9 1 hwaits).2 (by rw [hleft]; decide)⟩

end MyOS
