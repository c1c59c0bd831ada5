import MyOS.Proofs.Turn

/-!
# Every exit is reported once

Between two turns of the memory manager every process it serves runs, waits for a child to exit,
hangs after its own exit, or its entry is free; a process hangs only while its parent does not
wait. Each turn keeps that, and its reports are just the exits that it, or an earlier turn, left
to be told.
-/

namespace MyOS

open Memory

/-! ## Between two turns -/

theorem Settled.orphan {x : Proc} (h : Settled x) (pid : Slot) : Settled (orphan pid x) := by
  rcases h with ⟨h1, h2, h3, h4⟩ | ⟨h1, h2, h3, h4⟩ | ⟨h1, h2, h3, h4⟩ | h1
  · exact .inl ⟨by simpa, by simpa, by simpa, by simpa⟩
  · exact .inr (.inl ⟨by simpa, by simpa, by simpa, by simpa⟩)
  · exact .inr (.inr (.inl ⟨by simpa, by simpa, by simpa, by simpa⟩))
  · exact .inr (.inr (.inr (by simpa)))

theorem hanging_orphan (pid : Slot) (x : Proc) : Hanging (orphan pid x) ↔ Hanging x := by
  rw [Hanging, Hanging, orphan_pFlags]

theorem Between.start (mem : Mem) (limit : BitVec 32) : Between (kernelMain mem limit) := by
  have hnative {q : Slot} (hq : q.val < nrTasks + nrNativeProcs) :
      Idle (kernelMainProc limit q) ∧ (kernelMainProc limit q).pParent = noTask := by
    rw [kernelMainProc, if_neg (by omega)]
    exact ⟨⟨rfl, rfl, rfl, rfl⟩, rfl⟩
  have hfree {q : Slot} (hq : nrTasks + nrNativeProcs ≤ q.val) :
      (kernelMainProc limit q).pFlags = freeSlot := by
    rw [kernelMainProc, if_pos hq]
  have hsettled (q : Slot) : Settled (kernelMainProc limit q) := by
    by_cases hq : nrTasks + nrNativeProcs ≤ q.val
    · exact .inr (.inr (.inr (hfree hq)))
    · exact .inl (hnative (by omega)).1
  have hquiet (q : Slot) : ¬ Hanging (kernelMainProc limit q) := by
    by_cases hq : nrTasks + nrNativeProcs ≤ q.val
    · exact (free_quiet (hfree hq)).1
    · exact (hnative (by omega)).1.quiet.1
  refine ⟨⟨rfl, .start mem limit, (hnative (q := taskMm) (by decide)).1⟩, fun q => ?_,
    fun q => ?_, hsettled,
    fun q hq => ⟨?_, hquiet q, (hnative hq).2⟩, fun q hq hu => absurd (hfree hq) hu,
    fun q _ hh => absurd hh (hquiet q)⟩
  · simp only [kernelMain, restart, kernelMainProc]
    split_ifs <;> rfl
  · simp only [kernelMain, restart, kernelMainProc]
    split_ifs <;> rfl
  · have hf := (hnative hq).1.pFlags
    simp only [kernelMain, restart, hf]
    decide

variable {mm : MmEnv} {k k' : Kernel} {pid p c : Slot} {m : Addr} {status : BitVec 32}

theorem Between.native_ne (h : Between k) {q : Slot} (hq : q.val < nrTasks + nrNativeProcs)
    (p : Slot) : (k.procTable q).pParent ≠ proc2pid p := by
  rw [(h.native q hq).2.2]
  have hp : p.val < 37 := p.isLt
  unfold noTask proc2pid
  omega

theorem not_native_of_exit (hu : nrTasks + nrNativeProcs ≤ pid.val) {q : Slot}
    (hq : q.val < nrTasks + nrNativeProcs) : q ≠ pid := by
  rintro rfl
  omega

/-- A write to a process that leaves it alive or hanging as it was, and at most ends its waiting. -/
structure Tame (x y : Proc) : Prop where
  settled : Settled y
  hasIntMsg : y.hasIntMsg = x.hasIntMsg
  qSending : y.qSending = x.qSending
  pParent : y.pParent = x.pParent
  free : y.pFlags = freeSlot ↔ x.pFlags = freeSlot
  hanging : Hanging y ↔ Hanging x
  waiting : Waiting y → Waiting x

theorem Tame.refl {x : Proc} (h : Settled x) : Tame x x :=
  ⟨h, rfl, rfl, rfl, Iff.rfl, Iff.rfl, id⟩

theorem Tame.told {x : Proc} (h : AtMm x MyOS.waiting) : Tame x (told x) := by
  have hidle := h.told
  refine ⟨.inl hidle, rfl, rfl, rfl, ?_, ?_, fun hw => absurd hw hidle.quiet.2⟩
  · rw [hidle.pFlags, h.pFlags]
    decide
  · exact ⟨fun hh => absurd hh hidle.quiet.1, fun hh => absurd hh h.waits.1⟩

/-- An exit, whether it is told or not: the process hangs or is free, its children are children of
`INIT`, and where `INIT` still waits none of them hangs. -/
theorem Between.exit (h : Between k) (hu : nrTasks + nrNativeProcs ≤ pid.val)
    (hp : (k.procTable pid).pParent = proc2pid p) (hpp : p ≠ pid) (hlp : Parent k p)
    (hr : Ready k') {f : Slot → Proc} (hk : k'.procTable = fun q => orphan pid (f q))
    (hf : ∀ q, q ≠ pid → Tame (k.procTable q) (f q)) (hset : Settled (f pid))
    (hint : (f pid).hasIntMsg = false) (hqs : (f pid).qSending = none)
    (hpar : (f pid).pParent = proc2pid p)
    (hnow : Hanging (f pid) → ¬ Waiting (f p))
    (hs : ∀ i, i ≠ pid → (k.procTable i).pParent = proc2pid pid → Hanging (k.procTable i) →
      ¬ Waiting (f init)) : Between k' := by
  have hinit : init ≠ pid := not_native_of_exit hu (by decide)
  have hflags (q : Slot) : (k'.procTable q).pFlags = (f q).pFlags := by rw [hk, orphan_pFlags]
  have hhang (q : Slot) : Hanging (k'.procTable q) ↔ Hanging (f q) := by
    rw [Hanging, Hanging, hflags]
  have hwait (q : Slot) : Waiting (k'.procTable q) ↔ Waiting (f q) := by
    rw [Waiting, Waiting, hflags]
  have hparent {q : Slot} (hq : q ≠ pid) : (k'.procTable q).pParent =
      if (k.procTable q).pParent = proc2pid pid then proc2pid init
      else (k.procTable q).pParent := by
    rw [hk, ← (hf q hq).pParent]
    exact apply_ite Proc.pParent _ _ _
  have hself : (k'.procTable pid).pParent = proc2pid p := by
    rw [hk, orphan_pParent_of_ne, hpar]
    rw [hpar]
    exact fun he => hpp (proc2pid_inj he)
  have hlive {q : Slot} (hq : Parent k q) (hqp : q ≠ pid) : Parent k' q :=
    ⟨hq.user, by rw [hflags, Ne, (hf q hqp).free]; exact hq.used,
      by rw [hhang, (hf q hqp).hanging]; exact hq.alive⟩
  have hroot : Parent k init :=
    ⟨by decide, (h.native init (by decide)).1, (h.native init (by decide)).2.1⟩
  refine ⟨hr, fun q => ?_, fun q => ?_, fun q => ?_, fun q hq => ?_, fun q hq hu' => ?_,
    fun q p' hh hq hw => ?_⟩
  · rw [hk, orphan_hasIntMsg]
    by_cases hqp : q = pid
    · rwa [hqp]
    · rw [(hf q hqp).hasIntMsg, h.hasIntMsg]
  · rw [hk, orphan_qSending]
    by_cases hqp : q = pid
    · rwa [hqp]
    · rw [(hf q hqp).qSending, h.qSending]
  · rw [hk]
    refine Settled.orphan ?_ pid
    by_cases hqp : q = pid
    · rwa [hqp]
    · exact (hf q hqp).settled
  · have hqp := not_native_of_exit hu hq
    obtain ⟨h1, h2, h3⟩ := h.native q hq
    refine ⟨by rwa [hflags, Ne, (hf q hqp).free], by rwa [hhang, (hf q hqp).hanging], ?_⟩
    rwa [hparent hqp, if_neg (h.native_ne hq pid)]
  · by_cases hqp : q = pid
    · subst hqp
      exact ⟨p, hself, hpp, hlive hlp hpp⟩
    rw [hflags, Ne, (hf q hqp).free] at hu'
    obtain ⟨p', hp', hne, hlv⟩ := h.parent q hq hu'
    rw [hparent hqp]
    split_ifs with ho
    · exact ⟨init, rfl, not_native_of_exit hq (by decide), hlive hroot hinit⟩
    · refine ⟨p', hp', hne, hlive hlv ?_⟩
      rintro rfl
      exact ho hp'
  · rw [hhang] at hh
    rw [hwait] at hw
    by_cases hqp : q = pid
    · subst hqp
      obtain rfl := proc2pid_inj (hself.symm.trans hq)
      exact hnow hh hw
    rw [(hf q hqp).hanging] at hh
    rw [hparent hqp] at hq
    split_ifs at hq with ho
    · obtain rfl := proc2pid_inj hq
      exact hs q hqp ho hh hw
    · have hp'pid : p' ≠ pid := by
        rintro rfl
        exact ho hq
      exact h.prompt q p' hh hq ((hf p' hp'pid).waiting hw)

/-- A write to one entry. -/
theorem Between.write (h : Between k) (hr : Ready k') {x : Proc}
    (hk : k'.procTable = fun q => if q = c then x else k.procTable q) (hset : Settled x)
    (hint : x.hasIntMsg = false) (hqs : x.qSending = none)
    (hnat : c.val < nrTasks + nrNativeProcs →
      x.pFlags ≠ freeSlot ∧ ¬ Hanging x ∧ x.pParent = noTask)
    (hpar : nrTasks + nrNativeProcs ≤ c.val → x.pFlags ≠ freeSlot →
      ∃ p, x.pParent = proc2pid p ∧ p ≠ c ∧ Parent k p)
    (hlive : Parent k c → x.pFlags ≠ freeSlot ∧ ¬ Hanging x)
    (hnow : ∀ p, Hanging x → x.pParent = proc2pid p → ¬ Waiting (k.procTable p))
    (hs : ∀ i, i ≠ c → Hanging (k.procTable i) → (k.procTable i).pParent = proc2pid c →
      ¬ Waiting x) : Between k' := by
  have hself : k'.procTable c = x := by
    rw [hk]
    exact if_pos rfl
  have helse {q : Slot} (hq : q ≠ c) : k'.procTable q = k.procTable q := by
    rw [hk]
    exact if_neg hq
  have hkeep {q : Slot} (hq : Parent k q) : Parent k' q := by
    by_cases hqc : q = c
    · obtain ⟨h1, h2⟩ := hlive (hqc ▸ hq)
      exact ⟨hq.user, by rwa [hqc, hself], by rwa [hqc, hself]⟩
    · exact ⟨hq.user, by rw [helse hqc]; exact hq.used, by rw [helse hqc]; exact hq.alive⟩
  refine ⟨hr, fun q => ?_, fun q => ?_, fun q => ?_, fun q hq => ?_, fun q hq hu => ?_,
    fun q p hh hq hw => ?_⟩ <;> by_cases hqc : q = c
  · rwa [hqc, hself]
  · rw [helse hqc, h.hasIntMsg]
  · rwa [hqc, hself]
  · rw [helse hqc, h.qSending]
  · rwa [hqc, hself]
  · rw [helse hqc]
    exact h.state q
  · subst hqc
    rw [hself]
    exact hnat hq
  · rw [helse hqc]
    exact h.native q hq
  · subst hqc
    rw [hself] at hu ⊢
    obtain ⟨p, h1, h2, h3⟩ := hpar hq hu
    exact ⟨p, h1, h2, hkeep h3⟩
  · rw [helse hqc] at hu ⊢
    obtain ⟨p, h1, h2, h3⟩ := h.parent q hq hu
    exact ⟨p, h1, h2, hkeep h3⟩
  · subst hqc
    rw [hself] at hh hq
    by_cases hpq : p = q
    · subst hpq
      rw [hself] at hw
      exact settled_not_both hset hh hw
    · rw [helse hpq] at hw
      exact hnow p hh hq hw
  · rw [helse hqc] at hh hq
    by_cases hpc : p = c
    · subst hpc
      rw [hself] at hw
      exact hs q hqc hh hq hw
    · rw [helse hpc] at hw
      exact h.prompt q p hh hq hw

/-- A turn keeps the state between turns. -/
theorem Between.turn (h : Between k) (hu : pid ≠ taskMm)
    (hf : (k.procTable pid).pFlags = 0) (hm : m ≠ 0) {d : Done} (hr : Ready k')
    (hex : d.request.isExit → nrTasks + nrNativeProcs ≤ pid.val)
    (hs : Spares k pid d.request) (ho : TurnOutcome k pid m d k'.procTable) : Between k' := by
  have hidle := h.idle hf
  have hused : (k.procTable pid).pFlags ≠ freeSlot := by
    rw [hf]
    decide
  have hpid : Parent k pid := ⟨hu, hused, hidle.quiet.1⟩
  have hsame (ht : k'.procTable = k.procTable) : Between k' := by
    refine h.write hr (c := pid) (x := k.procTable pid) ?_ (h.state pid) (h.hasIntMsg pid)
      (h.qSending pid) (h.native pid) (fun hn hu => h.parent pid hn hu)
      (fun hp => ⟨hp.used, hp.alive⟩) (fun p => h.prompt pid p) fun i _ => h.prompt i pid
    rw [ht]
    funext q
    split_ifs with hq
    · rw [hq]
    · rfl
  generalize htab : k'.procTable = tab at ho
  cases ho with
  | full hfree => exact hsame htab
  | forked c name ldts hfree hn =>
    have hcp : pid ≠ c := by
      rintro rfl
      exact hused (findFree_some hfree)
    refine h.write hr htab (.inl ⟨hidle.1, hidle.2, hidle.3, hidle.4⟩) (h.hasIntMsg pid)
      (h.qSending pid) (fun hc => absurd hn (by omega)) (fun _ _ => ⟨pid, rfl, hcp, hpid⟩)
      (fun hc => absurd (findFree_some hfree) hc.used) (fun p hh => absurd hh ?_)
      fun i _ _ _ => ?_
    · exact hidle.quiet.1
    · exact hidle.quiet.2
  | told p status hp hw =>
    have hn := hex rfl
    obtain ⟨p', hp', hne, hlv⟩ := h.parent pid hn hused
    obtain rfl := proc2pid_inj (hp.symm.trans hp')
    have hat := (h.state p).atMm_waiting hw
    have hinit : init ≠ pid := not_native_of_exit hn (by decide)
    refine h.exit hn hp hne hlv hr htab (fun q hq => ?_) ?_ ?_ ?_ ?_ ?_ ?_
    · rw [if_neg hq]
      by_cases hqp : q = p
      · rw [if_pos hqp, hqp]
        exact .told hat
      · rw [if_neg hqp]
        exact .refl (h.state q)
    · rw [if_pos rfl]
      exact .inr (.inr (.inr rfl))
    · rw [if_pos rfl]
      exact h.hasIntMsg pid
    · rw [if_pos rfl]
      exact h.qSending pid
    · rw [if_pos rfl]
      exact hp
    · rw [if_pos rfl]
      exact fun hh => absurd hh (free_quiet rfl).1
    · intro i _ hpi hhi hwi
      rw [if_neg hinit] at hwi
      by_cases hip : init = p
      · rw [if_pos hip] at hwi
        exact hat.told.quiet.2 hwi
      · rw [if_neg hip] at hwi
        exact hs ⟨fun he => hip (proc2pid_inj (he.symm.trans hp)), hwi, i, hpi, hhi⟩
  | hung p status hp hw =>
    have hn := hex rfl
    obtain ⟨p', hp', hne, hlv⟩ := h.parent pid hn hused
    obtain rfl := proc2pid_inj (hp.symm.trans hp')
    have hinit : init ≠ pid := not_native_of_exit hn (by decide)
    refine h.exit hn hp hne hlv hr htab (fun q hq => ?_) ?_ ?_ ?_ ?_ ?_ ?_
    · rw [if_neg hq]
      exact .refl (h.state q)
    · rw [if_pos rfl]
      exact .inr (.inr (.inl ⟨rfl, hm, rfl, hidle.pSendto⟩))
    · rw [if_pos rfl]
      exact h.hasIntMsg pid
    · rw [if_pos rfl]
      exact h.qSending pid
    · rw [if_pos rfl]
      exact hp
    · rw [if_neg hne]
      exact fun _ => hw
    · intro i _ hpi hhi hwi
      rw [if_neg hinit] at hwi
      by_cases hip : init = p
      · exact hw (hip ▸ hwi)
      · exact hs ⟨fun he => hip (proc2pid_inj (he.symm.trans hp)), hwi, i, hpi, hhi⟩
  | reaped c hp hh =>
    have hn : nrTasks + nrNativeProcs ≤ c.val := by
      by_contra hn
      exact (h.native c (by omega)).2.1 hh
    refine h.write hr htab (.inr (.inr (.inr rfl))) (h.hasIntMsg c) (h.qSending c)
      (fun hc => absurd hn (by omega)) (fun _ hx => absurd rfl hx) (fun hl => absurd hh hl.alive)
      (fun p hx => absurd hx (free_quiet rfl).1) fun i _ _ _ => (free_quiet rfl).2
  | waits hno =>
    have hat : AtMm { asked (k.procTable pid) m with pFlags := receiving ||| waiting } waiting :=
      ⟨rfl, hm, rfl, hidle.pSendto⟩
    have hfree : receiving ||| waiting ≠ freeSlot := by decide
    refine h.write hr htab (.inr (.inl hat)) (h.hasIntMsg pid) (h.qSending pid)
      (fun hc => ⟨hfree, hat.waits.1, (h.native pid hc).2.2⟩)
      (fun hc _ => h.parent pid hc hused) (fun _ => ⟨hfree, hat.waits.1⟩)
      (fun p hx => absurd hx hat.waits.1) fun i _ hhi hpi => absurd hhi (hno i hpi)
  | childless hno => exact hsame htab

/-! ## Whole runs -/

/-- The statuses `c` has exited with, newest first. -/
def exited (c : Slot) (t : List Done) : List (BitVec 32) :=
  t.flatMap fun d =>
    match d.request with
    | .exit status => if d.pid = c then [status] else []
    | _ => []

/-- The statuses that have been reported of `c`. -/
def reported (c : Slot) (t : List Done) : List (BitVec 32) :=
  t.flatMap fun d => (d.reports.filter fun r => r.child = c).map Report.status

/-- An exit that is yet to be reported. -/
def pending (x : Proc) : List (BitVec 32) := if Hanging x then [x.exitStatus] else []

/-- The parent of a process: the one that forked it, or `INIT` once that has exited. -/
def parentOf (c : Slot) : List Done → Int
  | [] => noTask
  | d :: t =>
    if d.child = some c then proc2pid d.pid
    else if d.request.isExit ∧ parentOf c t = proc2pid d.pid then proc2pid init
    else parentOf c t

theorem pending_of_not {x : Proc} (h : ¬ Hanging x) : pending x = [] := if_neg h

theorem pending_orphan (pid : Slot) (x : Proc) : pending (orphan pid x) = pending x := by
  unfold pending
  rw [orphan_exitStatus]
  exact if_congr (hanging_orphan pid x) rfl rfl

/-- What exits in a turn or was to be reported is reported in it or is to be reported after it. -/
theorem TurnOutcome.balance (h : Between k) (hf : (k.procTable pid).pFlags = 0) {d : Done}
    {tab : Slot → Proc} (ho : TurnOutcome k pid m d tab) (c : Slot) :
    exited c [d] ++ pending (k.procTable c) = pending (tab c) ++ reported c [d] := by
  have hidle := h.idle hf
  have hpid : pending (k.procTable pid) = [] := pending_of_not hidle.quiet.1
  cases ho with
  | full hfree => simp [exited, reported]
  | forked c' name ldts hfree hn =>
    by_cases hc : c = c'
    · have h1 : pending (k.procTable c') = [] := pending_of_not (free_quiet (findFree_some hfree)).1
      have h2 : pending (childProc (k.procTable pid) pid name ldts) = [] :=
        pending_of_not (x := childProc (k.procTable pid) pid name ldts) hidle.quiet.1
      simp [exited, reported, hc, h1, h2]
    · simp [exited, reported, hc]
  | told p status hp hw =>
    rw [pending_orphan]
    by_cases hc : c = pid
    · have h1 : pending { asked (k.procTable pid) m with pFlags := freeSlot, exitStatus := status }
          = [] := pending_of_not (free_quiet rfl).1
      simp [exited, reported, hc, hpid, h1]
    · have h1 : exited c [⟨pid, .exit status, none, [⟨pid, proc2pid p, status⟩]⟩] = [] := by
        simp [exited, Ne.symm hc]
      have h2 : reported c [⟨pid, .exit status, none, [⟨pid, proc2pid p, status⟩]⟩] = [] := by
        simp [reported, Ne.symm hc]
      rw [h1, h2, List.append_nil, List.nil_append, if_neg hc]
      split_ifs with hcp
      · have hat := (h.state p).atMm_waiting hw
        rw [hcp, pending_of_not hat.waits.1, pending_of_not hat.told.quiet.1]
      · rfl
  | hung p status hp hw =>
    rw [pending_orphan]
    by_cases hc : c = pid
    · have h1 : pending { asked (k.procTable pid) m with
          pFlags := receiving ||| hanging, exitStatus := status } = [status] :=
        if_pos (show (receiving ||| hanging) &&& hanging ≠ 0 by decide)
      simp [exited, reported, hc, hpid, h1]
    · have h1 : exited c [⟨pid, .exit status, none, []⟩] = [] := by
        simp [exited, Ne.symm hc]
      rw [h1, if_neg hc]
      simp [reported]
  | reaped c' hp hh =>
    by_cases hc : c = c'
    · have h1 : pending (k.procTable c') = [(k.procTable c').exitStatus] := if_pos hh
      have h2 : pending { k.procTable c' with pFlags := freeSlot } = [] :=
        pending_of_not (free_quiet rfl).1
      simp [exited, reported, hc, h1, h2]
    · simp [exited, reported, hc, Ne.symm hc]
  | waits hno =>
    by_cases hc : c = pid
    · have h1 : pending { asked (k.procTable pid) m with pFlags := receiving ||| waiting } = [] :=
        pending_of_not (show ¬ ((receiving ||| waiting) &&& hanging ≠ 0) by decide)
      simp [exited, reported, hc, hpid, h1]
    · simp [exited, reported, hc]
  | childless hno => simp [exited, reported]

/-- The parent of a process after a turn. -/
theorem TurnOutcome.parent {d : Done} {tab : Slot → Proc} (ho : TurnOutcome k pid m d tab)
    {c : Slot}
    (hused : (tab c).pFlags ≠ freeSlot) : (tab c).pParent =
      if d.child = some c then proc2pid d.pid
      else if d.request.isExit ∧ (k.procTable c).pParent = proc2pid d.pid then proc2pid init
      else (k.procTable c).pParent := by
  cases ho with
  | full hfree => simp [Request.isExit]
  | forked c' name ldts hfree hn =>
    by_cases hc : c = c'
    · simp [hc, childProc]
    · simp [Request.isExit, hc, Ne.symm hc]
  | told p status hp hw =>
    rw [orphan_pFlags] at hused
    by_cases hc : c = pid
    · rw [if_pos hc] at hused
      exact absurd rfl hused
    · simp only [if_neg hc, Request.isExit, true_and, reduceCtorEq, if_false]
      have hpar : (if c = p then MyOS.told (k.procTable p) else k.procTable c).pParent =
          (k.procTable c).pParent := by
        split_ifs with hcp
        · rw [hcp]
          rfl
        · rfl
      rw [← hpar]
      exact apply_ite Proc.pParent _ _ _
  | hung p status hp hw =>
    simp only [Request.isExit, true_and, reduceCtorEq, if_false]
    have hpar : (if c = pid then { asked (k.procTable pid) m with
        pFlags := receiving ||| hanging, exitStatus := status } else k.procTable c).pParent =
        (k.procTable c).pParent := by
      split_ifs with hcp
      · rw [hcp]
        rfl
      · rfl
    rw [← hpar]
    exact apply_ite Proc.pParent _ _ _
  | reaped c' hp hh =>
    by_cases hc : c = c'
    · simp [Request.isExit, hc]
    · simp [Request.isExit, hc]
  | waits hno =>
    by_cases hc : c = pid
    · simp [Request.isExit, hc, asked]
    · simp [Request.isExit, hc]
  | childless hno => simp [Request.isExit]

/-- What is kept about a run. -/
structure History (t : List Done) (k : Kernel) : Prop extends Between k where
  exits : ∀ c, exited c t = pending (k.procTable c) ++ reported c t
  parents : ∀ c : Slot, (k.procTable c).pFlags ≠ freeSlot →
    (k.procTable c).pParent = parentOf c t

/-- What a turn has done about exits. -/
structure Reaped (t : List Done) (k : Kernel) (d : Done) (k' : Kernel) : Prop where
  /-- A report goes to the parent the process has then. -/
  parent : ∀ r ∈ d.reports, r.parent = parentOf r.child (d :: t)
  /-- It is a message with the pid and the status, and there is no other. -/
  sent : d.request ≠ .fork → Sent k d k'
  /-- An entry is freed when its exit is reported. -/
  freed : ∀ c, (k'.procTable c).pFlags = freeSlot ↔
    ((k.procTable c).pFlags = freeSlot ∧ d.child ≠ some c) ∨ ∃ r ∈ d.reports, r.child = c
  /-- An exit is reported at once to a parent that waits. -/
  prompt : ∀ p status, d.request = .exit status → (k.procTable d.pid).pParent = proc2pid p →
    Waiting (k.procTable p) → ⟨d.pid, proc2pid p, status⟩ ∈ d.reports
  /-- A report ends the waiting of the parent; the other flag it clears is that of the reply. -/
  flags : ∀ r ∈ d.reports, ∀ q, r.parent = proc2pid q →
    (k'.procTable q).pFlags = (k.procTable q).pFlags &&& ~~~waiting &&& ~~~receiving

/-- A process that hangs is in use, and was forked. -/
theorem Between.forked (h : Between k) {c : Slot} (hc : Hanging (k.procTable c)) :
    nrTasks + nrNativeProcs ≤ c.val ∧ (k.procTable c).pFlags ≠ freeSlot := by
  refine ⟨?_, fun hf => (free_quiet hf).1 hc⟩
  by_contra hn
  exact (h.native c (by omega)).2.1 hc

theorem History.reaped {t : List Done} (h : History t k) (hf : (k.procTable pid).pFlags = 0)
    {d : Done} (hex : d.request.isExit → nrTasks + nrNativeProcs ≤ pid.val)
    (hsent : d.request ≠ .fork → Sent k d k') (ho : TurnOutcome k pid m d k'.procTable) :
    Reaped t k d k' := by
  have hidle := h.idle hf
  have hused : (k.procTable pid).pFlags ≠ freeSlot := by
    rw [hf]
    decide
  generalize htab : k'.procTable = tab at ho
  refine ⟨?_, hsent, fun c => ?_, ?_, ?_⟩
  · intro r hr
    cases ho with
    | told p status hp hw =>
      obtain rfl := List.mem_singleton.1 hr
      have hn := hex rfl
      obtain ⟨p', hp', hpp, -⟩ := h.parent pid hn hused
      obtain rfl := proc2pid_inj (hp.symm.trans hp')
      have hpar : parentOf pid t = proc2pid p := (h.parents pid hused).symm.trans hp
      have hne : proc2pid p ≠ proc2pid pid := fun he => hpp (proc2pid_inj he)
      simp [parentOf, hpar, hne]
    | reaped c hp hh =>
      obtain rfl := List.mem_singleton.1 hr
      obtain ⟨hn, hu⟩ := h.forked hh
      have hpar : parentOf c t = proc2pid pid := (h.parents c hu).symm.trans hp
      simp [parentOf, Request.isExit, hpar]
    | _ => exact absurd hr List.not_mem_nil
  · rw [htab]
    cases ho with
    | full hfree => simp
    | forked c' name ldts hfree hn =>
      by_cases hc : c = c'
      · have h0 : (childProc (k.procTable pid) pid name ldts).pFlags ≠ freeSlot := hused
        simp [hc, h0]
      · simp [hc, Ne.symm hc]
    | told p status hp hw =>
      rw [orphan_pFlags]
      by_cases hc : c = pid
      · simp [hc]
      · rw [if_neg hc]
        by_cases hcp : c = p
        · have hat := (h.state p).atMm_waiting hw
          have h0 : (MyOS.told (k.procTable p)).pFlags ≠ freeSlot := by
            rw [hat.told.pFlags]
            decide
          have h1 : (k.procTable p).pFlags ≠ freeSlot := by
            rw [hat.pFlags]
            decide
          simp [hcp, h0, h1, hcp ▸ Ne.symm hc]
        · simp [hcp, Ne.symm hc]
    | hung p status hp hw =>
      rw [orphan_pFlags]
      by_cases hc : c = pid
      · have h0 : receiving ||| hanging ≠ freeSlot := by decide
        simp [hc, h0, hused]
      · simp [hc]
    | reaped c' hp hh =>
      by_cases hc : c = c'
      · simp [hc]
      · simp [hc, Ne.symm hc]
    | waits hno =>
      by_cases hc : c = pid
      · have h0 : receiving ||| waiting ≠ freeSlot := by decide
        simp [hc, h0, hused]
      · simp [hc]
    | childless hno => simp
  · intro p status hreq hp hw
    cases ho with
    | told p' status' hp' hw' =>
      obtain rfl := proc2pid_inj (hp.symm.trans hp')
      obtain rfl : status' = status := by simpa using hreq
      exact List.mem_singleton.2 rfl
    | hung p' status' hp' hw' =>
      obtain rfl := proc2pid_inj (hp.symm.trans hp')
      exact absurd hw hw'
    | _ => exact Request.noConfusion hreq
  · intro r hr q hq
    rw [htab]
    cases ho with
    | told p status hp hw =>
      obtain rfl := List.mem_singleton.1 hr
      obtain rfl := proc2pid_inj hq
      obtain ⟨p', hp', hpp, -⟩ := h.parent pid (hex rfl) hused
      obtain rfl := proc2pid_inj (hp.symm.trans hp')
      rw [orphan_pFlags, if_neg hpp, if_pos rfl]
      rfl
    | reaped c hp hh =>
      obtain rfl := List.mem_singleton.1 hr
      obtain rfl := proc2pid_inj hq
      have hne : pid ≠ c := by
        rintro rfl
        exact hidle.quiet.1 hh
      simp only [if_neg hne, hf]
      decide
    | _ => exact absurd hr List.not_mem_nil

theorem History.turn {t : List Done} (h : History t k) {d : Done} (hb : Between k')
    (hr : Reaped t k d k') (hf : (k.procTable pid).pFlags = 0)
    (ho : TurnOutcome k pid m d k'.procTable) : History (d :: t) k' := by
  refine ⟨hb, fun c => ?_, fun c hu => ?_⟩
  · have hbal := ho.balance h.toBetween hf c
    calc exited c (d :: t) = exited c [d] ++ exited c t := by simp [exited]
      _ = exited c [d] ++ pending (k.procTable c) ++ reported c t := by
        rw [h.exits, List.append_assoc]
      _ = pending (k'.procTable c) ++ (reported c [d] ++ reported c t) := by
        rw [hbal, List.append_assoc]
      _ = pending (k'.procTable c) ++ reported c (d :: t) := by simp [reported]
  · rw [ho.parent hu, parentOf]
    by_cases hc : d.child = some c
    · rw [if_pos hc, if_pos hc]
    · have hk : (k.procTable c).pFlags ≠ freeSlot := fun hfree =>
        hu ((hr.freed c).2 (.inl ⟨hfree, hc⟩))
      rw [if_neg hc, if_neg hc, h.parents c hk]

theorem MayAsk.user {request : Request} (h : MayAsk k pid request) : pid ≠ taskMm := by
  rintro rfl
  rcases h.2 with hn | ⟨hi, -⟩
  · exact absurd hn (by decide)
  · exact absurd hi (by decide)

theorem MayAsk.forked {request : Request} (h : MayAsk k pid request) (he : request.isExit) :
    nrTasks + nrNativeProcs ≤ pid.val :=
  h.2.resolve_right fun hi => Bool.noConfusion (hi.2.symm.trans he)

variable (mm) in
/-- An exit or a wait stops just where the flags of `INIT` would be set. -/
theorem turn_ok_iff (h : Between k) {request : Request} (hmay : MayAsk k pid request)
    (hm : m ≠ 0) (hr : request ≠ .fork) :
    (∃ d k', turn mm k pid request m = .ok (d, k')) ↔ Spares k pid request := by
  cases request with
  | fork => exact absurd rfl hr
  | exit status =>
    refine ⟨fun ⟨d, k', ht⟩ => ?_, fun hs => ?_⟩
    · by_contra hs
      rw [exit_astray h (hmay.forked rfl) hmay.1 hm hs] at ht
      nomatch ht
    · obtain ⟨d, k', ht, -⟩ := exit_spec mm h (hmay.forked rfl) hmay.1 hm hs
      exact ⟨d, k', ht⟩
  | wait =>
    obtain ⟨d, k', ht, -⟩ := wait_spec mm h hmay.user hmay.1 hm
    exact ⟨fun _ => trivial, fun _ => ⟨d, k', ht⟩⟩

theorem turn_request {request : Request} {d : Done}
    (ht : turn mm k pid request m = .ok (d, k')) : d.request = request := by
  obtain ⟨k₁, -, ht⟩ := bind_eq_ok.1 ht
  cases request <;>
  · obtain ⟨x, -, ht⟩ := bind_eq_ok.1 ht
    simp only [Except.ok.injEq, Prod.mk.injEq] at ht
    rw [← ht.1]

/-- A turn that does not stop, from a state between two. -/
theorem turn_outcome (h : Between k) {request : Request} (hf : (k.procTable pid).pFlags = 0)
    (hne : pid ≠ taskMm) (hm : m ≠ 0) {d : Done} (ht : turn mm k pid request m = .ok (d, k')) :
    (request.isExit → nrTasks + nrNativeProcs ≤ pid.val) ∧ Spares k pid request ∧ Ready k' ∧
      TurnOutcome k pid m d k'.procTable ∧ (request ≠ .fork → Sent k d k') := by
  cases request with
  | fork =>
    obtain ⟨-, hr, ho⟩ := fork_spec h hne hf hm ht
    exact ⟨fun he => Bool.noConfusion he, trivial, hr, ho, fun hn => absurd rfl hn⟩
  | exit status =>
    have hn : nrTasks + nrNativeProcs ≤ pid.val := by
      by_contra hn
      rw [exit_native h (by omega) hne hf hm] at ht
      nomatch ht
    have hs : Spares k pid (.exit status) := by
      by_contra hs
      rw [exit_astray h hn hf hm hs] at ht
      nomatch ht
    obtain ⟨d', k'', ht', hr, ho, hsent⟩ := exit_spec mm h hn hf hm hs
    obtain ⟨rfl, rfl⟩ := Prod.mk.inj (Except.ok.inj (ht.symm.trans ht'))
    exact ⟨fun _ => hn, hs, hr, ho, fun _ => hsent⟩
  | wait =>
    obtain ⟨d', k'', ht', hr, ho, hsent, -⟩ := wait_spec mm h hne hf hm
    obtain ⟨rfl, rfl⟩ := Prod.mk.inj (Except.ok.inj (ht.symm.trans ht'))
    exact ⟨fun he => Bool.noConfusion he, trivial, hr, ho, fun _ => hsent⟩

/-- What a turn does about exits, and what is kept. -/
theorem History.step {t : List Done} (h : History t k) {request : Request}
    (hf : (k.procTable pid).pFlags = 0) (hne : pid ≠ taskMm) (hm : m ≠ 0) {d : Done}
    (ht : MyOS.turn mm k pid request m = .ok (d, k')) :
    Reaped t k d k' ∧ History (d :: t) k' := by
  obtain ⟨hforked, hs, hr, ho, hsent⟩ := turn_outcome h.toBetween hf hne hm ht
  obtain rfl := turn_request ht
  have hreap := h.reaped hf hforked hsent ho
  exact ⟨hreap, h.turn (h.toBetween.turn hne hf hm hr hforked hs ho) hreap hf ho⟩

theorem kernelMain_free (mem : Mem) (limit : BitVec 32) {c : Slot}
    (hc : nrTasks + nrNativeProcs ≤ c.val) :
    ((kernelMain mem limit).procTable c).pFlags = freeSlot := by
  simp only [kernelMain, restart, kernelMainProc, if_pos hc]

theorem Turn.turnOf {d : Done} (h : Turn mm k d k') : TurnOf mm k d k' :=
  ⟨h.1.1, h.1.user, h.2⟩

theorem History.of_run {t : List Done} (h : Run Start (TurnOf mm) t k) : History t k := by
  refine h.invariant (P := History) ?_ ?_
  · rintro k ⟨mem, limit, rfl⟩
    have hb := Between.start mem limit
    refine ⟨hb, fun c => ?_, fun c hu => ?_⟩
    · have hc : ¬ Hanging ((kernelMain mem limit).procTable c) := by
        intro hh
        obtain ⟨hn, hu⟩ := hb.forked hh
        exact hu (kernelMain_free mem limit hn)
      simp [exited, reported, pending_of_not hc]
    · by_cases hn : nrTasks + nrNativeProcs ≤ c.val
      · exact absurd (kernelMain_free mem limit hn) hu
      · exact (hb.native c (by omega)).2.2
  · rintro t k d k' h ⟨hf, hne, m, hm, ht⟩
    exact (h.step hf hne hm ht).2

/-- Every exit is reported once. In every run of turns, and whatever is asked next, the exits of a
process are those that have been reported of it and at most one that is to be; it is not to be
reported to a parent that waits; a turn does with its exits what it is to do, and it stops at an
exit just where a child of the process hangs while `INIT` waits for somebody else. -/
theorem exits_reaped_once {t : List Done}
    (h : Run Start (fun k d k' => Turn mm k d k' ∧ Spares k d.pid d.request) t k) :
    (∀ c, exited c t = pending (k.procTable c) ++ reported c t) ∧
    (∀ c p, Hanging (k.procTable c) → (k.procTable c).pParent = proc2pid p →
      ¬ Waiting (k.procTable p)) ∧
    ∀ pid request m, MayAsk k pid request → m ≠ 0 →
      (∀ d k', turn mm k pid request m = .ok (d, k') → Reaped t k d k') ∧
      (request ≠ .fork → ((∃ d k', turn mm k pid request m = .ok (d, k') ∧ Reaped t k d k') ↔
        Spares k pid request)) := by
  have hist := History.of_run (h.mono fun _ _ _ hs => hs.1.turnOf)
  refine ⟨hist.exits, hist.prompt, fun pid request m hmay hm =>
    ⟨fun d k' ht => (hist.step hmay.1 hmay.user hm ht).1, fun hr => ?_⟩⟩
  rw [← turn_ok_iff mm hist.toBetween hmay hm hr]
  exact ⟨fun ⟨d, k', ht, _⟩ => ⟨d, k', ht⟩, fun ⟨d, k', ht⟩ =>
    ⟨d, k', ht, (hist.step hmay.1 hmay.user hm ht).1⟩⟩

/-- A turn, as it is computed. -/
def turnStep (mm : MmEnv) (m : Addr) (k : Kernel) (d : Done) : Option Kernel :=
  if MayAsk k d.pid d.request ∧ Spares k d.pid d.request then
    (turn mm k d.pid d.request m).toOption.bind fun x => if x.1 = d then some x.2 else none
  else none

theorem turn_of_turnStep (hm : m ≠ 0) {d : Done} (h : turnStep mm m k d = some k') :
    Turn mm k d k' ∧ Spares k d.pid d.request := by
  unfold turnStep at h
  split_ifs at h with hc
  obtain ⟨⟨d', k₁⟩, ht, h⟩ := Option.bind_eq_some_iff.1 h
  split_ifs at h with hd
  obtain rfl := Option.some.inj h
  subst hd
  exact ⟨⟨hc.1, m, hm, toOption_eq_some.1 ht⟩, hc.2⟩

theorem run_of_turnStep (hm : m ≠ 0) {l : List Done}
    (h : Run.exec (turnStep mm m) (kernelMain (fun _ => 0) 0) l = some k) :
    Run Start (fun k d k' => Turn mm k d k' ∧ Spares k d.pid d.request) (l.reverse ++ []) k :=
  (Run.of_exec (.start ⟨_, _, rfl⟩) h).mono fun _ _ _ hs => turn_of_turnStep hm hs

/-- A child of `INIT` exits before `INIT` waits for it. -/
theorem exits_reaped_once_child : ∃ k t,
    Run Start (fun k d k' => Turn mmEnv64 k d k' ∧ Spares k d.pid d.request) t k ∧
    reported 9 t = [7] ∧
    (∀ c, exited c t = pending (k.procTable c) ++ reported c t) ∧
    (∀ c p, Hanging (k.procTable c) → (k.procTable c).pParent = proc2pid p →
      ¬ Waiting (k.procTable p)) ∧
    ∀ pid request m, MayAsk k pid request → m ≠ 0 →
      (∀ d k', turn mmEnv64 k pid request m = .ok (d, k') → Reaped t k d k') ∧
      (request ≠ .fork →
        ((∃ d k', turn mmEnv64 k pid request m = .ok (d, k') ∧ Reaped t k d k') ↔
          Spares k pid request)) := by
  have hsome : (Run.exec (turnStep mmEnv64 0x2000) (kernelMain (fun _ => 0) 0)
      [⟨5, .fork, some 9, []⟩, ⟨9, .exit 7, none, []⟩,
        ⟨5, .wait, none, [⟨9, 5, 7⟩]⟩]).isSome = true := by
    decide
  obtain ⟨k, hk⟩ := Option.isSome_iff_exists.1 hsome
  have hrun := run_of_turnStep (by decide) hk
  exact ⟨k, _, hrun, by decide, exits_reaped_once hrun⟩

/-- `INIT` waits while process 9, which it forked, runs; 9 has forked 10, and 10 has forked 11,
which hangs. At the exit of 10 every flag of `INIT` but `WAITING` is set, and the report of 11 to
`INIT` never arrives. -/
theorem exit_sets_init_flags : ∃ k t, Run Start (Turn mmEnv64) t k ∧
    MayAsk k 10 (.exit 1) ∧ Waiting (k.procTable init) ∧
    Hanging (k.procTable 11) ∧ parentOf 11 t = proc2pid 10 ∧
    ((adopt k 10 11).2.procTable init).pFlags = ~~~waiting ∧
    ∀ m, m ≠ 0 → turn mmEnv64 k 10 (.exit 1) m = .error .wild := by
  have hany : (Run.exec (turnStep mmEnv64 0x2000) (kernelMain (fun _ => 0) 0)
      [⟨5, .fork, some 9, []⟩, ⟨9, .fork, some 10, []⟩, ⟨10, .fork, some 11, []⟩,
        ⟨11, .exit 7, none, []⟩, ⟨5, .wait, none, []⟩]).any (fun k =>
      MayAsk k 10 (.exit 1) ∧ Waiting (k.procTable init) ∧ Hanging (k.procTable 11) ∧
        ((adopt k 10 11).2.procTable init).pFlags = ~~~waiting ∧
        ¬ Spares k 10 (.exit 1)) = true := by
    decide +kernel
  obtain ⟨k, hk, hp⟩ := (Option.any_eq_true _ _).1 hany
  obtain ⟨hmay, hw, hh, hfl, hs⟩ := of_decide_eq_true hp
  have hrun := (run_of_turnStep (by decide) hk).mono fun _ _ _ hs => hs.1
  exact ⟨k, _, hrun, hmay, hw, hh, by decide, hfl, fun m hm =>
    exit_astray (History.of_run (hrun.mono fun _ _ _ hs => hs.turnOf)).toBetween (hmay.forked rfl)
      hmay.1 hm hs⟩

end MyOS
