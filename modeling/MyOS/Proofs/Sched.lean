import MyOS.Sched
import Mathlib.Data.List.FinRange
import Mathlib.Data.Fin.Basic

/-!
# Rounds of the scheduler

`schedule` gives out ticks when it finds none with a process that could run, and picks the process
that has the most. A tick of the clock takes one from the process that runs, and nothing else
changes what a process has until the next round, so that a process that could run all the time has
run as long as its priority says.
-/

namespace MyOS

open Sched

variable {s s' : Sched} {p q : Slot}

/-! ## The choice -/

/-- What the loop has found among the entries it has seen. -/
structure Best (s : Sched) (seen : List Slot) (best : Int × Slot) : Prop where
  nonneg : 0 ≤ best.1
  most : ∀ q ∈ seen, s.Runnable q → (s.procTable q).ticks ≤ best.1
  found : best.1 ≠ 0 → best.2 ∈ seen ∧ s.Runnable best.2 ∧ (s.procTable best.2).ticks = best.1 ∧
    ∀ q ∈ seen, s.Runnable q → (s.procTable q).ticks = best.1 → best.2 ≤ q

theorem Best.look {seen : List Slot} {best : Int × Slot} (h : Best s seen best)
    (hp : ∀ q ∈ seen, q < p) : Best s (seen ++ [p]) (s.look best p) := by
  have hnonneg := h.nonneg
  have hlast : p ∈ seen ++ [p] := List.mem_append_right _ (List.mem_singleton_self p)
  unfold Sched.look
  split_ifs with hmore
  · obtain ⟨hrun, hlt⟩ := hmore
    refine ⟨by dsimp only; omega, fun q hq hq' => ?_,
      fun _ => ⟨hlast, hrun, rfl, fun q hq hq' hmost => ?_⟩⟩
    · rcases List.mem_append.1 hq with hq | hq
      · exact (h.most q hq hq').trans hlt.le
      · rw [List.mem_singleton.1 hq]
    · rcases List.mem_append.1 hq with hq | hq
      · have := h.most q hq hq'
        dsimp only at hmost
        omega
      · rw [List.mem_singleton.1 hq]
  · refine ⟨hnonneg, fun q hq hq' => ?_, fun hne => ?_⟩
    · rcases List.mem_append.1 hq with hq | hq
      · exact h.most q hq hq'
      · obtain rfl := List.mem_singleton.1 hq
        by_contra hlt
        exact hmore ⟨hq', by omega⟩
    · obtain ⟨hmem, hrun, hticks, hfirst⟩ := h.found hne
      refine ⟨List.mem_append_left _ hmem, hrun, hticks, fun q hq hq' hmost => ?_⟩
      rcases List.mem_append.1 hq with hq | hq
      · exact hfirst q hq hq' hmost
      · -- the entry found before comes before this one
        rw [List.mem_singleton.1 hq]
        exact (hp _ hmem).le

theorem Best.foldl : ∀ {l seen : List Slot} {best : Int × Slot}, Best s seen best →
    (seen ++ l).Pairwise (· < ·) → Best s (seen ++ l) (l.foldl s.look best)
  | [], seen, best, h, _ => by rwa [List.append_nil]
  | p :: l, seen, best, h, hl => by
    have hp : ∀ q ∈ seen, q < p := fun q hq =>
      (List.pairwise_append.1 hl).2.2 q hq p List.mem_cons_self
    rw [List.append_cons] at hl ⊢
    exact Best.foldl (h.look hp) hl

theorem best_of_all (s : Sched) : Best s (List.finRange _) s.best := by
  have hstart : Best s [] (0, s.pProcReady) := ⟨le_rfl, nofun, fun h => absurd rfl h⟩
  have := hstart.foldl (l := List.finRange (nrTasks + nrProcs))
    (by simpa using List.pairwise_lt_finRange _)
  rwa [List.nil_append] at this

/-! ## The round -/

theorem give_procTable (s : Sched) (p q : Slot) : (s.give p).procTable q =
    if q = p ∧ s.Runnable q then (s.procTable q).refill else s.procTable q := by
  unfold Sched.give
  split_ifs with hp hq hq
  · obtain ⟨rfl, -⟩ := hq
    simp
  · have : q ≠ p := fun heq => hq ⟨heq, heq ▸ hp⟩
    simp [this]
  · exact absurd (hq.1 ▸ hq.2) hp
  · rfl

theorem give_runnable (s : Sched) (p q : Slot) : (s.give p).Runnable q ↔ s.Runnable q := by
  unfold Sched.Runnable
  rw [give_procTable]
  split_ifs <;> rfl

theorem foldl_give_procTable (q : Slot) : ∀ (l : List Slot) (s : Sched),
    (l.foldl give s).procTable q =
      if q ∈ l ∧ s.Runnable q then (s.procTable q).refill else s.procTable q
  | [], s => by simp
  | p :: l, s => by
    rw [List.foldl_cons, foldl_give_procTable q l]
    simp only [give_runnable, give_procTable, List.mem_cons]
    by_cases hq : s.Runnable q
    · by_cases hp : q = p
      · subst hp
        simp [hq, SchedProc.refill]
      · simp [hq, hp]
    · simp [hq]

theorem foldl_give_pProcReady : ∀ (l : List Slot) (s : Sched),
    (l.foldl give s).pProcReady = s.pProcReady
  | [], _ => rfl
  | p :: l, s => by
    rw [List.foldl_cons, foldl_give_pProcReady l]
    unfold Sched.give
    split_ifs <;> rfl

/-- The table after a refill. -/
def refilled (s : Sched) : Slot → SchedProc := fun q =>
  if s.Runnable q then (s.procTable q).refill else s.procTable q

/-- The process that `schedule` has picked, with what it did to the table. -/
structure SelectsNext (s s' : Sched) : Prop where
  runnable : s'.Runnable s'.pProcReady
  most : ∀ q, s'.Runnable q → (s'.procTable q).ticks ≤ (s'.procTable s'.pProcReady).ticks
  first : ∀ q, s'.Runnable q →
    (s'.procTable q).ticks = (s'.procTable s'.pProcReady).ticks → s'.pProcReady ≤ q
  table : s'.procTable = s.procTable ∨
    (∀ q, s.Runnable q → (s.procTable q).ticks ≤ 0) ∧ s'.procTable = refilled s

/-- The turn of `schedule` that finds a process. -/
theorem scheduleLoop_found (n : ℕ) (hsome : ∃ q, s.Runnable q ∧ 0 < (s.procTable q).ticks) :
    ∃ s', scheduleLoop n s = .ok s' ∧ s'.procTable = s.procTable ∧ s'.Runnable s'.pProcReady ∧
      (∀ q, s'.Runnable q → (s'.procTable q).ticks ≤ (s'.procTable s'.pProcReady).ticks) ∧
      ∀ q, s'.Runnable q →
        (s'.procTable q).ticks = (s'.procTable s'.pProcReady).ticks → s'.pProcReady ≤ q := by
  have hbest := best_of_all s
  obtain ⟨q, hq, hpos⟩ := hsome
  have hne : s.best.1 ≠ 0 := by
    have := hbest.most q (List.mem_finRange q) hq
    omega
  obtain ⟨-, hrun, hticks, hfirst⟩ := hbest.found hne
  refine ⟨{ s with pProcReady := s.best.2 }, ?_, rfl, hrun, fun q hq => ?_, fun q hq hmost => ?_⟩
  · cases n <;> exact if_pos hne
  · exact (hbest.most q (List.mem_finRange q) hq).trans hticks.ge
  · exact hfirst q (List.mem_finRange q) hq (hmost.trans hticks)

/-- The turn that finds none, and gives out ticks. -/
theorem scheduleLoop_none (n : ℕ) (hnone : ∀ q, s.Runnable q → (s.procTable q).ticks ≤ 0) :
    ∃ s₁, scheduleLoop (n + 1) s = scheduleLoop n s₁ ∧ s₁.procTable = refilled s := by
  have hbest := best_of_all s
  have hzero : s.best.1 = 0 := by
    by_contra hne
    obtain ⟨-, hrun, hticks, -⟩ := hbest.found hne
    have := hnone _ hrun
    have := hbest.nonneg
    omega
  refine ⟨{ s with pProcReady := s.best.2 }.giveAll, ?_, ?_⟩
  · rw [scheduleLoop, if_neg (not_not.2 hzero)]
  · funext q
    unfold Sched.giveAll
    rw [foldl_give_procTable]
    simp only [List.mem_finRange, true_and]
    rfl

/-- Of a table with a process that could run, and ticks to give to it, `schedule` picks one with
the most. -/
theorem schedule_selects (hsome : ∃ q, s.Runnable q)
    (hprio : ∀ q, s.Runnable q → 0 < (s.procTable q).priority) :
    ∃ s', scheduleLoop 1 s = .ok s' ∧ SelectsNext s s' := by
  by_cases hticks : ∃ q, s.Runnable q ∧ 0 < (s.procTable q).ticks
  · obtain ⟨s', hs', htable, hrun, hmost, hfirst⟩ := scheduleLoop_found 1 hticks
    exact ⟨s', hs', hrun, hmost, hfirst, .inl htable⟩
  · have hnone : ∀ q, s.Runnable q → (s.procTable q).ticks ≤ 0 := fun q hq =>
      not_lt.1 fun hpos => hticks ⟨q, hq, hpos⟩
    obtain ⟨s₁, hs₁, htable₁⟩ := scheduleLoop_none 0 hnone
    obtain ⟨q, hq⟩ := hsome
    have hgiven : s₁.Runnable q ∧ 0 < (s₁.procTable q).ticks := by
      unfold Sched.Runnable
      rw [htable₁, refilled, if_pos hq]
      exact ⟨hq, hprio q hq⟩
    obtain ⟨s', hs', htable, hrun, hmost, hfirst⟩ := scheduleLoop_found 0 ⟨q, hgiven⟩
    exact ⟨s', hs₁.trans hs', hrun, hmost, hfirst, .inr ⟨hnone, htable.trans htable₁⟩⟩

/-! ## The steps of schedule by themselves -/

/-- `schedule` goes on without a tick or another interrupt. -/
def Advances : Sched → Sched → Prop := Relation.ReflTransGen fun s s' => s.advance = some s'

theorem drop_finRange {i : ℕ} (hi : i < nrTasks + nrProcs) :
    (List.finRange (nrTasks + nrProcs)).drop i =
      ⟨i, hi⟩ :: (List.finRange (nrTasks + nrProcs)).drop (i + 1) := by
  rw [List.drop_eq_getElem_cons (by rwa [List.length_finRange]), List.getElem_finRange]
  rfl

theorem advances_scan : ∀ (left : ℕ) {i : ℕ} {g : Int} {s : Sched}, i + left = nrTasks + nrProcs →
    s.place = .scan i g → Advances s
      { s with
        pProcReady := (((List.finRange _).drop i).foldl s.look (g, s.pProcReady)).2
        place := .scan (nrTasks + nrProcs)
          (((List.finRange _).drop i).foldl s.look (g, s.pProcReady)).1 }
  | 0, i, g, s, hi, hplace => by
    obtain rfl : i = nrTasks + nrProcs := hi
    rw [List.drop_of_length_le (by rw [List.length_finRange]), List.foldl_nil, ← hplace]
    exact .refl
  | left + 1, i, g, s, hi, hplace => by
    have hlt : i < nrTasks + nrProcs := by omega
    rw [drop_finRange hlt, List.foldl_cons]
    refine .head (b := { s with
      pProcReady := (s.look (g, s.pProcReady) ⟨i, hlt⟩).2
      place := .scan (i + 1) (s.look (g, s.pProcReady) ⟨i, hlt⟩).1 }) ?_ ?_
    · simp only [Sched.advance, hplace, dif_pos hlt]
    · exact advances_scan left (by omega) rfl

theorem give_place (s : Sched) (p : Slot) (place : SchedPlace) :
    { s with place }.give p = { s.give p with place } := by
  by_cases hp : s.Runnable p
  · have hmoved : { s with place }.give p = { s with place }.set p SchedProc.refill := if_pos hp
    have hgiven : s.give p = s.set p SchedProc.refill := if_pos hp
    rw [hmoved, hgiven]
    rfl
  · have hmoved : { s with place }.give p = { s with place } := if_neg hp
    have hgiven : s.give p = s := if_neg hp
    rw [hmoved, hgiven]

theorem foldl_give_place (place : SchedPlace) : ∀ (l : List Slot) (s : Sched),
    l.foldl give { s with place } = { l.foldl give s with place }
  | [], _ => rfl
  | p :: l, s => by
    rw [List.foldl_cons, List.foldl_cons, give_place, foldl_give_place place l]

theorem give_all_place : ∀ (l : List Slot) (s : Sched), (l.foldl give s).place = s.place
  | [], _ => rfl
  | p :: l, s => by
    rw [List.foldl_cons, give_all_place l]
    unfold Sched.give
    split_ifs <;> rfl

theorem advances_refill : ∀ (left : ℕ) {i : ℕ} {s : Sched}, i + left = nrTasks + nrProcs →
    s.place = .refill i → Advances s
      { ((List.finRange _).drop i).foldl give s with place := .refill (nrTasks + nrProcs) }
  | 0, i, s, hi, hplace => by
    obtain rfl : i = nrTasks + nrProcs := hi
    rw [List.drop_of_length_le (by rw [List.length_finRange]), List.foldl_nil, ← hplace]
    exact .refl
  | left + 1, i, s, hi, hplace => by
    have hlt : i < nrTasks + nrProcs := by omega
    rw [drop_finRange hlt, List.foldl_cons]
    refine .head (b := { s.give ⟨i, hlt⟩ with place := .refill (i + 1) }) ?_ ?_
    · simp only [Sched.advance, hplace, dif_pos hlt]
    · have hrest := advances_refill left (s := { s.give ⟨i, hlt⟩ with place := .refill (i + 1) })
        (by omega) rfl
      rwa [foldl_give_place] at hrest

theorem advances_schedule : ∀ (n : ℕ) {s s' : Sched}, s.place = .scan 0 0 →
    scheduleLoop n s = .ok s' → Advances s { s' with place := .idle } := by
  have hfound (s : Sched) (hplace : s.place = .scan 0 0) (hne : s.best.1 ≠ 0) :
      Advances s { s with pProcReady := s.best.2, place := .idle } := by
    refine (advances_scan (nrTasks + nrProcs) (Nat.zero_add _) hplace).tail ?_
    simp only [Sched.advance, lt_irrefl, dif_neg, not_false_iff]
    rw [List.drop_zero]
    exact if_pos hne
  intro n
  induction n with
  | zero =>
    intro s s' hplace hs
    unfold scheduleLoop at hs
    split_ifs at hs with hne
    obtain rfl := Except.ok.inj hs
    exact hfound s hplace hne
  | succ n ih =>
    intro s s' hplace hs
    unfold scheduleLoop at hs
    split_ifs at hs with hne
    · obtain rfl := Except.ok.inj hs
      exact hfound s hplace hne
    · -- the loops are gone through once more, with the ticks given out
      have hscanned := advances_scan (nrTasks + nrProcs) (Nat.zero_add _) hplace
      rw [List.drop_zero] at hscanned
      have hnone : Advances s { s with pProcReady := s.best.2, place := .refill 0 } := by
        refine hscanned.tail ?_
        simp only [Sched.advance, lt_irrefl, dif_neg, not_false_iff]
        exact if_neg hne
      have hrefilled := advances_refill (nrTasks + nrProcs)
        (s := { s with pProcReady := s.best.2, place := .refill 0 }) (Nat.zero_add _) rfl
      rw [List.drop_zero, foldl_give_place (.refill 0) _ { s with pProcReady := s.best.2 }]
        at hrefilled
      have hagain : Advances s { s with pProcReady := s.best.2 }.giveAll := by
        refine (hnone.trans hrefilled).tail ?_
        simp only [Sched.advance, lt_irrefl, dif_neg, not_false_iff]
        rw [← hplace, Sched.giveAll, ← foldl_give_place]
      refine hagain.trans (ih ?_ hs)
      unfold Sched.giveAll
      rw [give_all_place]
      exact hplace

/-! ## Between two refills -/

/-- What a process has had of its round, where it could run all the time: with `c` ticks charged it
has the rest, and where `schedule` has passed it without a process found it has none. -/
structure InRound (p : Slot) (prio : Int) (c : ℕ) (s : Sched) : Prop where
  runnable : s.Runnable p
  priority : (s.procTable p).priority = prio
  ticks : (s.procTable p).ticks + (c : Int) = prio
  nonneg : 0 ≤ (s.procTable p).ticks
  scanned : ∀ i g, s.place = .scan i g → 0 ≤ g ∧ (p.val < i → g = 0 → (s.procTable p).ticks = 0)
  passed : ∀ i, s.place = .refill i → i ≤ p.val → (s.procTable p).ticks = 0

variable {t : List SchedAct} {a : SchedAct} {prio : Int} {c : ℕ}

theorem charge_procTable (s : Sched) (p : Slot) : s.charge.procTable p =
    if s.charged = some p then { s.procTable p with ticks := (s.procTable p).ticks - 1 }
    else s.procTable p := by
  unfold Sched.charge Sched.charged
  by_cases hticks : (s.procTable s.pProcReady).ticks ≠ 0
  · rw [if_pos hticks, if_pos hticks, set_procTable]
    by_cases hp : p = s.pProcReady
    · subst hp
      simp
    · simp [hp, Ne.symm hp]
  · rw [if_neg hticks, if_neg hticks]
    simp

theorem clockHandler_place (s : Sched) (reenter wakes : Bool) :
    (s.clockHandler reenter wakes).place = s.place ∨
      reenter = false ∧ (s.clockHandler reenter wakes).place = .scan 0 0 := by
  have hcharge (s : Sched) : s.charge.place = s.place := by
    unfold Sched.charge
    split_ifs <;> rfl
  unfold clockHandler
  cases reenter <;> cases wakes <;> dsimp only <;> split_ifs <;>
    simp_all [wakeTty]

/-- A tick takes one from the process it is charged to, and lets at most the terminal task go. -/
theorem clockHandler_procTable (s : Sched) (reenter wakes : Bool) (p : Slot) : ∃ pFlags,
    (s.Runnable p → pFlags = 0) ∧ (s.clockHandler reenter wakes).procTable p =
      ⟨pFlags, (s.procTable p).ticks - if s.charged = some p then 1 else 0,
        (s.procTable p).priority⟩ := by
  have hend (s : Sched) : (if reenter then s else if 0 < (s.procTable s.pProcReady).ticks then s
      else { s with place := .scan 0 0 }).procTable = s.procTable := by
    split_ifs <;> rfl
  have hcharge (ticks : Int) : ({ s with ticks }.charge).procTable p =
      ⟨(s.procTable p).pFlags, (s.procTable p).ticks - if s.charged = some p then 1 else 0,
        (s.procTable p).priority⟩ := by
    rw [charge_procTable]
    change (if s.charged = some p then _ else _) = _
    split_ifs
    · rfl
    · rw [Int.sub_zero]
  unfold clockHandler
  dsimp only
  rw [hend]
  cases wakes with
  | false => exact ⟨_, id, hcharge _⟩
  | true =>
    unfold wakeTty
    rw [if_pos rfl, set_procTable]
    by_cases hp : p = taskTty
    · subst hp
      rw [if_pos rfl, hcharge]
      refine ⟨_, fun hrun => ?_, rfl⟩
      rw [show (s.procTable taskTty).pFlags = 0 from hrun]
      exact BitVec.zero_and
    · rw [if_neg hp, hcharge]
      exact ⟨_, id, rfl⟩

/-- What leaves the counts of the process and the place alone, or calls `schedule`. -/
theorem InRound.congr (h : InRound p prio c s) (hrun : s'.Runnable p)
    (hprio : (s'.procTable p).priority = (s.procTable p).priority)
    (hticks : (s'.procTable p).ticks = (s.procTable p).ticks)
    (hplace : s'.place = s.place ∨ s'.place = .scan 0 0) : InRound p prio c s' := by
  refine ⟨hrun, hprio ▸ h.priority, hticks ▸ h.ticks, hticks ▸ h.nonneg, fun i g hi => ?_,
    fun i hi => ?_⟩
  · rcases hplace with hplace | hplace
    · rw [hticks]
      exact h.scanned i g (hplace ▸ hi)
    · obtain ⟨rfl, rfl⟩ := SchedPlace.scan.inj (hplace.symm.trans hi)
      exact ⟨le_rfl, fun hlt => absurd hlt (Nat.not_lt_zero _)⟩
  · rcases hplace with hplace | hplace
    · rw [hticks]
      exact h.passed i (hplace ▸ hi)
    · exact nomatch hplace.symm.trans hi

theorem InRound.clock (h : InRound p prio c s) (reenter wakes : Bool) :
    InRound p prio (c + if s.charged = some p then 1 else 0) (s.clockHandler reenter wakes) := by
  obtain ⟨pFlags, hflags, htable⟩ := clockHandler_procTable s reenter wakes p
  have hrun : (s.clockHandler reenter wakes).Runnable p := by
    unfold Sched.Runnable
    rw [htable]
    exact hflags h.runnable
  have hplace := (clockHandler_place s reenter wakes).imp_right And.right
  by_cases hcharged : s.charged = some p
  · have hsome : (s.procTable p).ticks ≠ 0 := by
      intro hzero
      unfold Sched.charged at hcharged
      split_ifs at hcharged with hready
      exact hready (Option.some.inj hcharged ▸ hzero)
    have hticks := h.ticks
    have hnonneg := h.nonneg
    rw [if_pos hcharged] at htable ⊢
    refine ⟨hrun, ?_, ?_, ?_, fun i g hi => ?_, fun i hi => ?_⟩
    · rw [htable]
      exact h.priority
    · rw [htable]
      dsimp only
      omega
    · rw [htable]
      dsimp only
      omega
    · rcases hplace with hplace | hplace
      · obtain ⟨hg, hzero⟩ := h.scanned i g (hplace ▸ hi)
        exact ⟨hg, fun hlt hg0 => absurd (hzero hlt hg0) hsome⟩
      · obtain ⟨rfl, rfl⟩ := SchedPlace.scan.inj (hplace.symm.trans hi)
        exact ⟨le_rfl, fun hlt => absurd hlt (Nat.not_lt_zero _)⟩
    · rcases hplace with hplace | hplace
      · exact fun hle => absurd (h.passed i (hplace ▸ hi) hle) hsome
      · exact nomatch hplace.symm.trans hi
  · rw [if_neg hcharged] at htable ⊢
    refine h.congr hrun ?_ ?_ hplace <;> rw [htable]
    exact Int.sub_zero _

/-- The loop over the entries misses a process only where it has no ticks. -/
theorem InRound.look (h : InRound p prio c s) {i : ℕ} {g : Int} (hplace : s.place = .scan i g)
    (hi : i < nrTasks + nrProcs) : 0 ≤ (s.look (g, s.pProcReady) ⟨i, hi⟩).1 ∧
      (p.val < i + 1 → (s.look (g, s.pProcReady) ⟨i, hi⟩).1 = 0 → (s.procTable p).ticks = 0) := by
  obtain ⟨hg, hzero⟩ := h.scanned i g hplace
  have hnonneg := h.nonneg
  unfold Sched.look
  split_ifs with hmore
  · exact ⟨hg.trans hmore.2.le, fun _ hg0 => by dsimp only at hg0 hmore; omega⟩
  · refine ⟨hg, fun hlt hg0 => ?_⟩
    rcases Nat.lt_or_eq_of_le (Nat.le_of_lt_succ hlt) with hlt | heq
    · exact hzero hlt hg0
    · have hp : (⟨i, hi⟩ : Slot) = p := Fin.ext heq.symm
      have hle : ¬ g < (s.procTable p).ticks := fun hlt => hmore (hp ▸ ⟨h.runnable, hlt⟩)
      dsimp only at hg0
      omega

/-- The loops pass the process. -/
theorem InRound.advance (h : InRound p prio c s) (hs : s.advance = some s')
    (hnot : ¬ s.Refills p) : InRound p prio c s' := by
  have hticks := h.ticks
  unfold Sched.advance at hs
  split at hs
  · exact nomatch hs
  · rename_i i g hplace
    obtain ⟨hg, hzero⟩ := h.scanned i g hplace
    split_ifs at hs with hi hfound
    · obtain ⟨hg', hzero'⟩ := h.look hplace hi
      obtain rfl := Option.some.inj hs
      refine ⟨h.runnable, h.priority, h.ticks, h.nonneg, fun j g' hj => ?_, nofun⟩
      generalize s.look (g, s.pProcReady) ⟨i, hi⟩ = best at hg' hzero' hj ⊢
      obtain ⟨rfl, rfl⟩ := SchedPlace.scan.inj hj
      exact ⟨hg', hzero'⟩
    · obtain rfl := Option.some.inj hs
      exact ⟨h.runnable, h.priority, h.ticks, h.nonneg, nofun, nofun⟩
    · obtain rfl := Option.some.inj hs
      refine ⟨h.runnable, h.priority, h.ticks, h.nonneg, nofun, fun j hj _ => ?_⟩
      exact hzero (by omega) (not_not.1 hfound)
  · rename_i i hplace
    split_ifs at hs with hi
    · obtain rfl := Option.some.inj hs
      have hne : p ≠ ⟨i, hi⟩ := by
        rintro rfl
        exact hnot ⟨hplace, h.runnable⟩
      have hsame : (s.give ⟨i, hi⟩).procTable p = s.procTable p := by
        rw [give_procTable, if_neg fun hp => hne hp.1]
      refine ⟨(give_runnable s _ p).2 h.runnable, ?_, ?_, ?_, nofun, fun j hj hle => ?_⟩
      · exact (congrArg SchedProc.priority hsame).trans h.priority
      · dsimp only
        rw [hsame]
        exact h.ticks
      · dsimp only
        rw [hsame]
        exact h.nonneg
      · obtain rfl := SchedPlace.refill.inj hj
        dsimp only
        rw [hsame]
        exact h.passed i hplace (by omega)
    · obtain rfl := Option.some.inj hs
      exact h.congr h.runnable rfl rfl (.inr rfl)

theorem InRound.step (h : InRound p prio (charges p t) s) (hs : BetweenRefills p s a s') :
    InRound p prio (charges p (a :: t)) s' := by
  obtain ⟨hs, hnot, hrun⟩ := hs
  have hcount : charges p (a :: t) = charges p t + if a.chargedTo p then 1 else 0 :=
    List.countP_cons
  rw [hcount]
  cases a with
  | clock reenter wakes charged =>
    simp only [SchedStep, schedStep] at hs
    split_ifs at hs with hcond
    obtain ⟨rfl, -⟩ := hcond
    obtain rfl := Option.some.inj hs
    simpa [SchedAct.chargedTo] using h.clock reenter wakes
  | advance => exact h.advance hs fun hr => hnot ⟨rfl, hr⟩
  | block q =>
    simp only [SchedStep, schedStep] at hs
    split_ifs at hs
    obtain rfl := Option.some.inj hs
    exact h.congr hrun rfl rfl (.inr rfl)
  | flags q pFlags =>
    obtain rfl := Option.some.inj hs
    refine h.congr hrun ?_ ?_ (.inl rfl) <;>
      · rw [set_procTable]
        split_ifs with hq
        · rw [hq]
        · rfl
  | fork child parent =>
    simp only [SchedStep, schedStep] at hs
    split_ifs at hs with hfree
    obtain rfl := Option.some.inj hs
    have hne : p ≠ child := by
      rintro rfl
      have hrun := h.runnable
      unfold Sched.Runnable at hrun
      rw [hrun] at hfree
      exact absurd hfree (by decide)
    have hsame : (s.set child fun _ => s.procTable parent).procTable p = s.procTable p := by
      rw [set_procTable, if_neg hne]
    exact h.congr hrun (congrArg _ hsame) (congrArg _ hsame) (.inl rfl)

theorem inRound_start (h : s.Refills p) (hs : s.advance = some s')
    (hprio : 0 ≤ (s.procTable p).priority) : InRound p (s.procTable p).priority 0 s' := by
  obtain ⟨hplace, hrun⟩ := h
  unfold Sched.advance at hs
  rw [hplace] at hs
  dsimp only at hs
  rw [dif_pos p.isLt] at hs
  obtain rfl := Option.some.inj hs
  have hgiven : (s.give p).procTable p = (s.procTable p).refill := by
    rw [give_procTable, if_pos ⟨rfl, hrun⟩]
  refine ⟨(give_runnable s p p).2 hrun, ?_, ?_, ?_, nofun, fun j hj hle => ?_⟩
  · dsimp only
    rw [hgiven]
    rfl
  · dsimp only
    rw [hgiven]
    exact Int.add_zero _
  · dsimp only
    rw [hgiven]
    exact hprio
  · obtain rfl := SchedPlace.refill.inj hj
    omega

/-- Between two refills of a process that could run all the time it is charged its priority. -/
theorem round_charges {s₀ s₁ : Sched} (h₀ : s₀.Refills p) (hs₀ : s₀.advance = some s₁)
    (hprio : 0 < (s₀.procTable p).priority) (hrun : Run (· = s₁) (BetweenRefills p) t s)
    (hs : s.Refills p) : (charges p t : Int) = (s₀.procTable p).priority := by
  have h : InRound p (s₀.procTable p).priority (charges p t) s :=
    hrun.invariant (P := fun t s => InRound p (s₀.procTable p).priority (charges p t) s)
      (fun _ hstart => by
        subst hstart
        exact inRound_start h₀ hs₀ hprio.le)
      fun _ _ _ _ ih hs => ih.step hs
  have hnone := h.passed p hs.1 le_rfl
  have := h.ticks
  omega

/-! ## Both -/

/-- `schedule` ends after one refill at most with the process that has the most ticks, and between
two refills a process that could run all the time is charged its priority. -/
theorem schedule_fair :
    (∀ s : Sched, (∃ q, s.Runnable q) → (∀ q, s.Runnable q → 0 < (s.procTable q).priority) →
      ∃ s', scheduleLoop 1 s = .ok s' ∧ SelectsNext s s') ∧
    ∀ (p : Slot) (s₀ s₁ s : Sched) (t : List SchedAct), s₀.Refills p → s₀.advance = some s₁ →
      0 < (s₀.procTable p).priority → Run (· = s₁) (BetweenRefills p) t s → s.Refills p →
      (charges p t : Int) = (s₀.procTable p).priority :=
  ⟨fun _ => schedule_selects, fun _ _ _ _ _ => round_charges⟩

instance (s : Sched) (p : Slot) : Decidable (s.Refills p) := inferInstanceAs (Decidable (_ ∧ _))

/-- A table with two processes: the terminal task gets two ticks at a time, `INIT` one. -/
def pair (place : SchedPlace) : Sched where
  procTable p :=
    if p = taskTty then ⟨0, 0, 2⟩ else if p = init then ⟨0, 0, 1⟩ else ⟨freeSlot, 0, 0⟩
  pProcReady := taskTty
  ticks := 0
  place := place

/-- The rest of the refill; the terminal task is picked and has its two ticks, one of them within
the kernel; `INIT` is picked and has its one; and `schedule` up to the next refill. -/
def aRound : List SchedAct :=
  List.replicate 75 .advance ++
    [.clock true false (some taskTty), .clock false false (some taskTty)] ++
    List.replicate 38 .advance ++ [.clock false false (some init)] ++ List.replicate 38 .advance

def betweenStep (p : Slot) (s : Sched) (a : SchedAct) : Option Sched :=
  if a = .advance ∧ s.Refills p then none else (schedStep s a).filter fun s' => s'.Runnable p

theorem schedule_fair_pair :
    (∃ s', scheduleLoop 1 (pair .idle) = .ok s' ∧ SelectsNext (pair .idle) s') ∧
    ∃ s₁ s, Run (· = s₁) (BetweenRefills taskTty) aRound.reverse s ∧
      (charges taskTty aRound.reverse : Int) = 2 := by
  refine ⟨schedule_fair.1 _ ⟨taskTty, rfl⟩ (by decide), ?_⟩
  have hany : (Run.exec (betweenStep taskTty) ((pair (.refill 0)).advance.get (by decide))
      aRound).any (fun s => s.Refills taskTty) = true := by decide +kernel
  obtain ⟨s, hs, hrefills⟩ := (Option.any_eq_true _ _).1 hany
  have hbetween (s : Sched) (a : SchedAct) (s' : Sched)
      (hs : betweenStep taskTty s a = some s') : BetweenRefills taskTty s a s' := by
    unfold betweenStep at hs
    split_ifs at hs with hnot
    obtain ⟨hs, hrun⟩ := Option.filter_eq_some_iff.1 hs
    exact ⟨hs, hnot, of_decide_eq_true hrun⟩
  have hrun := (Run.of_exec (@Run.start _ _ (· = _) _ _ rfl) hs).mono hbetween
  rw [List.append_nil] at hrun
  exact ⟨_, s, hrun, schedule_fair.2 taskTty (pair (.refill 0)) _ s _ ⟨rfl, rfl⟩
    (Option.some_get _).symm (by decide) hrun (of_decide_eq_true hrefills)⟩

end MyOS
