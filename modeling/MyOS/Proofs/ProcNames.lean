import MyOS.Proofs.ProcRuns

/-!
# The names of processes

`p_name` has 16 bytes and `p_flags` lies behind it. A fork prints the name of the parent, `_` and
the number of the child there, an exec copies the path of the file, and neither looks at a length.
So a name grows with the forks since the last exec, and fits just when its lineage is short.
-/

namespace MyOS

open Memory

variable {mm : MmEnv} {k k' : Kernel}

/-- The string that a request stores, and whose name it is. -/
inductive Stores (mm : MmEnv) (k : Kernel) : PmAct → Slot → List Char → Prop
  | fork (pid c : Slot) : findFree k = some c → nrTasks + nrNativeProcs ≤ c.val →
    Stores mm k (.fork pid (some c)) c (forkedName (k.procTable pid).pName c)
  | exec (fs : Fs) (src : Slot) (path : List Byte) : execName mm fs k src = .ok (some path) →
    Stores mm k (.exec fs src (some path)) src (path.map fun c : Byte => Char.ofNat c.toNat)

theorem forkedName_length (parent : List Char) (c : Slot) :
    (forkedName parent c).length = parent.length + (1 + (Nat.toDigits 10 c.val).length) := by
  simp [forkedName, Nat.add_comm 1]

theorem Lineage.fork_length (x : Lineage) (c : Slot) :
    (x.fork c).length = x.length + (1 + (Nat.toDigits 10 c.val).length) := by
  simp only [Lineage.length, Lineage.fork, List.map_cons, List.sum_cons]
  omega

/-- The length of each name is that of its lineage. -/
def Named (t : List PmAct) (k : Kernel) : Prop :=
  ∀ p, (k.procTable p).pName.length = (lineage t p).length

theorem Named.start (mem : Mem) (limit : BitVec 32) : Named [] (kernelMain mem limit) := by
  intro p
  have hnames : taskNames.length = nrTasks + nrNativeProcs := rfl
  simp only [kernelMain, restart_procTable, kernelMainProc, lineage, Lineage.length]
  split_ifs with hp
  · rw [List.getD_eq_getElem?_getD, List.getElem?_eq_none (by omega)]
    rfl
  · simp

theorem Named.step {t : List PmAct} {a : PmAct} (h : Named t k) (hs : PmStep mm k a k') :
    Named (a :: t) k' := by
  intro p
  have ho := pmStep_outcome hs
  cases ho with
  | forked pid c base k' hf =>
    rw [hf.procTable p, lineage]
    split_ifs with hp
    · rw [Lineage.fork_length, ← h pid]
      exact forkedName_length _ _
    · exact h p
  | full pid => exact h p
  | renamed fs src path k' _ ht =>
    rw [ht p, lineage]
    split_ifs with hp
    · simp [Lineage.length]
    · exact h p
  | refused fs src k' ht =>
    rw [ht]
    exact h p
  | other a k' hk =>
    rw [(hk p).pName]
    exact h p

/-- A name is stored where the entry it is for has room for it. -/
theorem pmStep_names {a : PmAct} (h : ∀ p, (k.procTable p).pName.length < nameSize)
    (hs : PmStep mm k a k') (p : Slot) : (k'.procTable p).pName.length < nameSize := by
  have ho := pmStep_outcome hs
  cases ho with
  | forked pid c base k' hf =>
    rw [hf.procTable p]
    split_ifs
    · exact hf.fits
    · exact h p
  | full pid => exact h p
  | renamed fs src path k' hfits ht =>
    rw [ht p]
    split_ifs
    · simpa using hfits
    · exact h p
  | refused fs src k' ht =>
    rw [ht]
    exact h p
  | other a k' hk =>
    rw [(hk p).pName]
    exact h p

theorem Stores.lineage {t : List PmAct} (hn : Named t k) {a : PmAct} {p : Slot} {s : List Char}
    (h : Stores mm k a p s) : s.length = (lineage (a :: t) p).length := by
  cases h with
  | fork pid c =>
    rw [MyOS.lineage, if_pos rfl, Lineage.fork_length, ← hn pid]
    exact forkedName_length _ _
  | exec fs src path =>
    rw [MyOS.lineage, if_pos rfl]
    simp [Lineage.length]

/-- In every run of forks and execs, with anything else in between, the names in the table fit, and
the next string that is stored does just when the lineage of its process is short: the name that was
given last, and `_` and a number for each fork since. -/
theorem names_fit {t : List PmAct} (h : Run Start (PmStep mm) t k) :
    (∀ p, (k.procTable p).pName.length < nameSize) ∧
      ∀ a p s, Stores mm k a p s →
        (s.length < nameSize ↔ (lineage (a :: t) p).length < nameSize) := by
  have hinv : Named t k ∧ ∀ p, (k.procTable p).pName.length < nameSize := by
    refine h.invariant (P := fun t k => Named t k ∧ ∀ p, (k.procTable p).pName.length < nameSize)
      ?_ fun t k a k' hk hs => ⟨hk.1.step hs, pmStep_names hk.2 hs⟩
    rintro k ⟨mem, limit, rfl⟩
    refine ⟨.start mem limit, fun p => ?_⟩
    rw [Named.start mem limit p]
    exact (show ∀ p : Slot, (lineage [] p).length < nameSize by decide) p
  refine ⟨hinv.2, fun a p s hs => ?_⟩
  rw [hs.lineage hinv.1]

/-- `INIT` forks, its child does, and so on to the fourth. -/
theorem forked_four_times : ∃ k t, Run Start (PmStep mmEnv64) t k ∧ findFree k = some 13 ∧
    (k.procTable 12).pName = "INIT_9_10_11_12".toList := by
  have hany : (Run.exec (mmStep mmEnv64) (kernelMain (fun _ => 0) 0)
      [.fork 5, .fork 9, .fork 10, .fork 11]).any (fun k => findFree k = some 13 ∧
        (k.procTable 12).pName = "INIT_9_10_11_12".toList) = true := by decide
  obtain ⟨k, hk, hp⟩ := (Option.any_eq_true _ _).1 hany
  obtain ⟨t, ht⟩ := exists_pmRun (Run.of_exec (.start ⟨_, _, rfl⟩) hk)
  obtain ⟨hfree, hname⟩ := of_decide_eq_true hp
  exact ⟨k, t, ht, hfree, hname⟩

/-- The names of these processes. -/
theorem names_fit_four : ∃ k t, Run Start (PmStep mmEnv64) t k ∧
    (∀ p, (k.procTable p).pName.length < nameSize) ∧
      ∀ a p s, Stores mmEnv64 k a p s →
        (s.length < nameSize ↔ (lineage (a :: t) p).length < nameSize) := by
  obtain ⟨k, t, ht, -, -⟩ := forked_four_times
  exact ⟨k, t, ht, names_fit ht⟩

/-- The fifth fork prints 18 characters. -/
theorem name_overflows : ∃ k t, Run Start (PmStep mmEnv64) t k ∧
    Stores mmEnv64 k (.fork 12 (some 13)) 13 "INIT_9_10_11_12_13".toList ∧
    ¬ "INIT_9_10_11_12_13".toList.length < nameSize := by
  obtain ⟨k, t, ht, hfree, hname⟩ := forked_four_times
  have hst : Stores mmEnv64 k (.fork 12 (some 13)) 13 (forkedName (k.procTable 12).pName 13) :=
    .fork 12 13 hfree (by decide)
  rw [hname] at hst
  exact ⟨k, t, ht, hst, by decide⟩

end MyOS
