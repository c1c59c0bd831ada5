import MyOS.Proofs.Reap

/-!
# What a wait is answered

A process that waits is woken by the exit of a child, and no exit is left hanging while its parent
waits. Whether there are children at all, `do_wait` decides from `p_parent`, which a freed entry
keeps: a process all of whose children have been reaped waits on, as long as nobody else is made
out of one of their entries.
-/

namespace MyOS

variable {mm : MmEnv} {k : Kernel} {t : List Done}

/-- In no state between two turns does a process wait while a child of it hangs. -/
theorem no_lost_wakeup (h : Run Start (TurnOf mm) t k) :
    ¬ ∃ p c, (k.procTable c).pParent = proc2pid p ∧ Waiting (k.procTable p) ∧
      Hanging (k.procTable c) := by
  rintro ⟨p, c, hp, hw, hh⟩
  exact (History.of_run h).prompt c p hh hp hw

/-- `INIT` waits for 9, whose child 10 hangs. -/
theorem no_lost_wakeup_nested : ∃ k t, Run Start (TurnOf mmEnv64) t k ∧
    Waiting (k.procTable init) ∧ Hanging (k.procTable 10) ∧
    ¬ ∃ p c, (k.procTable c).pParent = proc2pid p ∧ Waiting (k.procTable p) ∧
      Hanging (k.procTable c) := by
  have hany : (Run.exec (turnStep mmEnv64 0x2000) (kernelMain (fun _ => 0) 0)
      [⟨5, .fork, some 9, []⟩, ⟨9, .fork, some 10, []⟩, ⟨10, .exit 7, none, []⟩,
        ⟨5, .wait, none, []⟩]).any (fun k =>
      Waiting (k.procTable init) ∧ Hanging (k.procTable 10)) = true := by
    decide
  obtain ⟨k, hk, hp⟩ := (Option.any_eq_true _ _).1 hany
  obtain ⟨hw, hh⟩ := of_decide_eq_true hp
  have hrun := (run_of_turnStep (by decide) hk).mono fun _ _ _ hs => hs.1.turnOf
  exact ⟨k, _, hrun, hw, hh, no_lost_wakeup hrun⟩

/-- A child that runs, or whose exit has not been told. -/
def IsChild (t : List Done) (k : Kernel) (p c : Slot) : Prop :=
  (k.procTable c).pFlags ≠ freeSlot ∧ parentOf c t = proc2pid p

/-- A free entry that still names `p` as the parent of the process it held. -/
def StaleChild (k : Kernel) (p c : Slot) : Prop :=
  (k.procTable c).pFlags = freeSlot ∧ (k.procTable c).pParent = proc2pid p

instance (k : Kernel) (p c : Slot) : Decidable (StaleChild k p c) :=
  inferInstanceAs (Decidable (_ ∧ _))

theorem History.childless_iff (h : History t k) (p : Slot) :
    (∀ c, (k.procTable c).pParent ≠ proc2pid p) ↔
      (¬ ∃ c, IsChild t k p c) ∧ ¬ ∃ c, StaleChild k p c := by
  constructor
  · intro hno
    refine ⟨fun ⟨c, hu, hp⟩ => hno c ((h.parents c hu).trans hp), fun ⟨c, _, hp⟩ => hno c hp⟩
  · rintro ⟨hchild, hstale⟩ c hp
    by_cases hu : (k.procTable c).pFlags = freeSlot
    · exact hstale ⟨c, hu, hp⟩
    · exact hchild ⟨c, hu, (h.parents c hu).symm.trans hp⟩

/-- A process that waits is told that it has no children just where no entry, in use or free, names
it as parent; without children it waits on where a free one does. -/
theorem wait_answers (h : Run Start (TurnOf mm) t k) {p : Slot} {m : Memory.Addr}
    (hf : (k.procTable p).pFlags = 0) (hne : p ≠ taskMm) (hm : m ≠ 0) :
    ∃ d k', turn mm k p .wait m = .ok (d, k') ∧
      (RepliesNone k p k' ↔ (¬ ∃ c, IsChild t k p c) ∧ ¬ ∃ c, StaleChild k p c) ∧
      ((¬ ∃ c, IsChild t k p c) → (Waiting (k'.procTable p) ↔ ∃ c, StaleChild k p c)) := by
  have hist := History.of_run h
  obtain ⟨d, k', ht, -, ho, -, hreply, hsame⟩ := wait_spec mm hist.toBetween hne hf hm
  have hreq : d.request = .wait := turn_request ht
  refine ⟨d, k', ht, hreply.trans (hist.childless_iff p), ?_⟩
  intro hchild
  by_cases hstale : ∃ c, StaleChild k p c
  · refine iff_of_true ?_ hstale
    obtain ⟨s, -, hs⟩ := hstale
    generalize k'.procTable = tab at ho
    cases ho with
    | full => exact Request.noConfusion hreq
    | forked => exact Request.noConfusion hreq
    | told => exact Request.noConfusion hreq
    | hung => exact Request.noConfusion hreq
    | reaped c hp hh =>
      -- a child that hangs is a child
      have hu : (k.procTable c).pFlags ≠ freeSlot := fun hfree => (free_quiet hfree).1 hh
      exact absurd ⟨c, hu, (hist.parents c hu).symm.trans hp⟩ hchild
    | waits =>
      show (if p = p then _ else _ : Proc).pFlags &&& waiting ≠ 0
      simp only [if_pos]
      decide
    | childless hno => exact absurd hs (hno s)
  · refine iff_of_false ?_ hstale
    rw [hsame ((hist.childless_iff p).2 ⟨hchild, hstale⟩)]
    exact (hist.idle hf).quiet.2

/-- `INIT` forks, its child exits, and it waits for it. -/
def reapTurns : List Done :=
  [⟨5, .fork, some 9, []⟩, ⟨9, .exit 7, none, []⟩, ⟨5, .wait, none, [⟨9, 5, 7⟩]⟩]

/-- Then it has no child but a stale one. -/
theorem reapTurns_ok : ∃ k, Run Start (TurnOf mmEnv64) reapTurns.reverse k ∧
    ((k.procTable init).pFlags = 0 ∧ StaleChild k init 9 ∧
      ∀ c, (k.procTable c).pFlags ≠ freeSlot → (k.procTable c).pParent ≠ proc2pid init) ∧
    (turn mmEnv64 k init .wait 0x2000).toOption.any (fun r =>
      Waiting (r.2.procTable init)) = true := by
  have hany : (Run.exec (turnStep mmEnv64 0x2000) (kernelMain (fun _ => 0) 0) reapTurns).any
      (fun k => ((k.procTable init).pFlags = 0 ∧ StaleChild k init 9 ∧
        ∀ c, (k.procTable c).pFlags ≠ freeSlot → (k.procTable c).pParent ≠ proc2pid init) ∧
        (turn mmEnv64 k init .wait 0x2000).toOption.any fun r =>
          Waiting (r.2.procTable init)) = true := by
    decide
  obtain ⟨k, hk, hp⟩ := (Option.any_eq_true _ _).1 hany
  exact ⟨k, (run_of_turnStep (by decide) hk).mono fun _ _ _ hs => hs.1.turnOf,
    of_decide_eq_true hp⟩

/-- There it waits once more. -/
theorem wait_answers_reaped : ∃ k, Run Start (TurnOf mmEnv64) reapTurns.reverse k ∧
    ∃ d k', turn mmEnv64 k init .wait 0x2000 = .ok (d, k') ∧
      (RepliesNone k init k' ↔ (¬ ∃ c, IsChild reapTurns.reverse k init c) ∧
        ¬ ∃ c, StaleChild k init c) ∧
      ((¬ ∃ c, IsChild reapTurns.reverse k init c) →
        (Waiting (k'.procTable init) ↔ ∃ c, StaleChild k init c)) := by
  obtain ⟨k, hrun, ⟨hf, -⟩, -⟩ := reapTurns_ok
  exact ⟨k, hrun, wait_answers hrun hf (by decide) (by decide)⟩

/-- `INIT` has reaped its only child, and waits once more. -/
theorem reaped_parent_waits : ∃ t k k' d, Run Start (TurnOf mmEnv64) t k ∧
    (k.procTable init).pFlags = 0 ∧ turn mmEnv64 k init .wait 0x2000 = .ok (d, k') ∧
    (¬ ∃ c, IsChild t k init c) ∧ ¬ RepliesNone k init k' ∧ Waiting (k'.procTable init) := by
  obtain ⟨k, hrun, ⟨hf, hstale, hno⟩, hwait⟩ := reapTurns_ok
  have hist := History.of_run hrun
  obtain ⟨d, k', ht, -, -, -, hreply, -⟩ := wait_spec mmEnv64 hist.toBetween (by decide) hf
    (by decide : (0x2000 : Memory.Addr) ≠ 0)
  refine ⟨_, k, k', d, hrun, hf, ht, ?_, ?_, ?_⟩
  · rintro ⟨c, hu, hc⟩
    exact hno c hu ((hist.parents c hu).trans hc)
  · rw [hreply]
    exact fun hall => hall 9 hstale.2
  · rw [ht] at hwait
    exact of_decide_eq_true hwait

end MyOS
