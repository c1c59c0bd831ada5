import MyOS.ProcRuns
import MyOS.Proofs.Isolation

/-!
# What fork and exec leave of the table

A fork writes one entry, that of the child, and an exec the name of its caller. No other step gives
a process a name or a segment, and none but a fork takes an entry into use.
-/

namespace MyOS

open Memory

variable {mm : MmEnv} {k k' : Kernel}

/-- What a step that is neither a fork nor an exec leaves of an entry. -/
structure Kept (x y : Proc) : Prop where
  ldts : y.ldts = x.ldts
  pName : y.pName = x.pName
  live : y.pFlags &&& freeSlot = 0 → x.pFlags &&& freeSlot = 0

namespace Kept

theorem refl (x : Proc) : Kept x x := ⟨rfl, rfl, id⟩

theorem trans {x y z : Proc} (h : Kept x y) (h' : Kept y z) : Kept x z :=
  ⟨h'.ldts.trans h.ldts, h'.pName.trans h.pName, fun hz => h.live (h'.live hz)⟩

/-- A flag that is not `FREE_SLOT` is set or cleared. -/
theorem flags {x y : Proc} (hldts : y.ldts = x.ldts) (hname : y.pName = x.pName)
    (hflags : y.pFlags &&& freeSlot = x.pFlags &&& freeSlot) : Kept x y :=
  ⟨hldts, hname, fun hy => by rwa [← hflags]⟩

theorem set {k₁ : Kernel} {p : Slot} {f : Proc → Proc} (ht : k₁.procTable = k.procTable)
    (h : Kept (k.procTable p) (f (k.procTable p))) (q : Slot) :
    Kept (k.procTable q) ((k₁.set p f).procTable q) := by
  rw [Kernel.set_procTable, ht]
  split_ifs with hq
  · rwa [hq]
  · exact refl _

end Kept

theorem Kept.setFlag (x : Proc) {b : BitVec 32} (hb : b &&& freeSlot = 0) :
    Kept x { x with pFlags := x.pFlags ||| b } :=
  .flags rfl rfl (or_and_of_disjoint hb)

theorem Kept.clearFlag (x : Proc) {b : BitVec 32} (hb : ~~~b &&& freeSlot = freeSlot) :
    Kept x { x with pFlags := x.pFlags &&& ~~~b } :=
  .flags rfl rfl (and_not_and hb)

theorem SendrecOutcome.kept {p : Slot} {m src : Addr} {function : Function} {srcDest : Int}
    (hp : (k.procTable p).pFlags = 0) (ho : SendrecOutcome k p m src function srcDest k')
    (q : Slot) : Kept (k.procTable q) (k'.procTable q) := by
  cases ho with
  | send d k' _ _ ho =>
    cases ho with
    | handOff =>
      rw [handOff_procTable]
      refine .flags rfl rfl ?_
      dsimp only
      split_ifs
      · exact and_not_and (by decide)
      · rfl
    | queueUp last =>
      rw [queueUp_procTable]
      refine .flags rfl rfl ?_
      dsimp only
      split_ifs
      · exact or_and_of_disjoint (by decide)
      · rfl
  | receive srcDest k' ho =>
    cases ho with
    | takeInterrupt =>
      rw [takeInterrupt]
      refine Kept.set (k := k) (by rfl) ?_ q
      exact ⟨rfl, rfl, id⟩
    | takeFrom s prev =>
      rw [takeFrom_procTable]
      refine .flags rfl rfl ?_
      dsimp only
      split_ifs
      · exact and_not_and (by decide)
      · rfl
    | waitFor =>
      rw [waitFor]
      refine Kept.set (k := k) (by rfl) ?_ q
      exact ⟨rfl, rfl, fun _ => by rw [hp]; decide⟩

/-- No trap and no interrupt gives a process a name or a segment. -/
theorem step_kept {a : Act} (hs : Step k a k') (q : Slot) :
    Kept (k.procTable q) (k'.procTable q) := by
  rcases step_cases hs with ⟨p, function, srcDest, m, -, hp, hs⟩ | ⟨t, -, hi⟩ | ⟨mem, -, rfl⟩
  · obtain ⟨src, k₁, -, ho, rfl⟩ := sendrec_ok hs
    exact @SendrecOutcome.kept (save k) k₁ _ _ _ _ _ hp ho q
  · have ho := informInt_ok hi
    cases ho with
    | wake =>
      rw [wake]
      refine Kept.set (k := k) (by rfl) ?_ q
      exact .flags rfl rfl (and_not_and (by decide))
    | pend =>
      rw [pend]
      refine Kept.set (k := k) (by rfl) ?_ q
      exact ⟨rfl, rfl, id⟩
  · exact .refl _

theorem exitProc_kept {pid : Slot} {status : BitVec 32} {b : Bool}
    (h : exitProc k pid status = .ok (b, k')) (q : Slot) :
    Kept (k.procTable q) (k'.procTable q) := by
  obtain ⟨parent, -, h⟩ := bind_eq_ok.1 h
  dsimp only at h
  split_ifs at h <;> obtain ⟨-, rfl⟩ := Prod.mk.inj (Except.ok.inj h)
  all_goals
    have hset : Kept (k.procTable q)
        ((k.set pid fun p => { p with exitStatus := status }).procTable q) := by
      refine Kept.set (k := k) (by rfl) ?_ q
      exact ⟨rfl, rfl, id⟩
    refine hset.trans (Kept.set rfl ?_ q)
  · exact .clearFlag _ (by decide)
  · exact .setFlag _ (by decide)

theorem adopt_kept (k : Kernel) (pid i q : Slot) :
    Kept (k.procTable q) ((adopt k pid i).2.procTable q) := by
  by_cases ho : HangingOrphan k pid i
  · rw [adopt_orphan ho]
    dsimp only
    have hset : Kept (k.procTable q)
        ((k.set i fun p => { p with pParent := proc2pid init }).procTable q) := by
      refine Kept.set (k := k) (by rfl) ?_ q
      exact ⟨rfl, rfl, id⟩
    refine hset.trans (Kept.set rfl ?_ q)
    exact ⟨rfl, rfl, fun h => absurd h (show ¬ ~~~waiting &&& freeSlot = 0 by decide)⟩
  · rw [adopt_eq ho]
    dsimp only
    split_ifs
    · refine Kept.set (k := k) (by rfl) ?_ q
      exact ⟨rfl, rfl, id⟩
    · exact .refl _

theorem mmStep_kept {a : MmAct} (ha : ∀ pid, a ≠ .fork pid) (hs : MmStep mm k a k') (q : Slot) :
    Kept (k.procTable q) (k'.procTable q) := by
  cases a with
  | kernel a => exact step_kept hs q
  | fork pid => exact absurd rfl (ha pid)
  | exit pid status =>
    simp only [MmStep, mmStep] at hs
    split_ifs at hs
    obtain ⟨⟨b, k₁⟩, he, rfl⟩ := Option.map_eq_some_iff.1 hs
    exact exitProc_kept (toOption_eq_some.1 he) q
  | adopt pid i =>
    simp only [MmStep, mmStep] at hs
    split_ifs at hs
    obtain rfl := Option.some.inj hs
    exact adopt_kept k pid i q
  | free p =>
    simp only [MmStep, mmStep] at hs
    split_ifs at hs
    obtain rfl := Option.some.inj hs
    refine Kept.set (k := k) (by rfl) ?_ q
    exact ⟨rfl, rfl, fun h => absurd h (show ¬ freeSlot &&& freeSlot = 0 by decide)⟩
  | wait pid =>
    simp only [MmStep, mmStep] at hs
    split_ifs at hs
    obtain rfl := Option.some.inj hs
    exact .set rfl (.setFlag _ (by decide)) q

/-! ## Fork -/

theorem childName_eq (parent : List Char) (child : Slot) : childName parent child =
    if (forkedName parent child).length < nameSize then .ok (forkedName parent child)
    else .error .wild := rfl

/-- A fork that makes a child: everything that it has checked and done. -/
structure Forks (mm : MmEnv) (k : Kernel) (pid c : Slot) (base : BitVec 32) (k' : Kernel) :
    Prop where
  free : findFree k = some c
  high : nrTasks + nrNativeProcs ≤ c.val
  fits : (forkedName (k.procTable pid).pName c).length < nameSize
  same : ((k.procTable pid).ldts 0).linear = ((k.procTable pid).ldts 1).linear
  alloc : allocMem mm c (segSize ((k.procTable pid).ldts 0).limit ((k.procTable pid).ldts 0)) =
    .ok base
  mem : k'.mem = memcpy k.mem base ((k.procTable pid).ldts 0).linear
    (segSize ((k.procTable pid).ldts 0).limit ((k.procTable pid).ldts 0)).toNat
  procTable : ∀ q, k'.procTable q = if q = c then childProc (k.procTable pid) pid
    (forkedName (k.procTable pid).pName c) (childLdts base) else k.procTable q

theorem forkProc_forks {pid c : Slot} (h : forkProc mm k pid = .ok (some c, k')) :
    ∃ base, Forks mm k pid c base k' := by
  cases forkProc_done h with
  | made _ name base hp hn hname hsame hbase =>
    rw [childName_eq] at hname
    split_ifs at hname with hfits
    obtain rfl := Except.ok.inj hname
    exact ⟨base, hp, hn, hfits, hsame.1, hbase, rfl, fun q => by rw [Kernel.set_procTable]⟩

/-! ## Exec -/

/-- The rest of an exec that stores a name. -/
theorem doExec_of_name {fs : Fs} {src : Slot} {path : List Byte}
    (h : execName mm fs k src = .ok (some path)) : ∃ fs' mem, doExec mm fs k src =
      if nameSize ≤ path.length then .error .wild
      else .ok (0, fs', { k with mem }.set src fun p =>
        { p with pName := path.map fun c : Byte => Char.ofNat c.toNat }) := by
  unfold execName at h
  obtain ⟨path', hpath, h⟩ := bind_eq_ok.1 h
  obtain ⟨⟨size, fs', mem⟩, hread, h⟩ := bind_eq_ok.1 h
  cases size with
  | none => exact nomatch Except.ok.inj h
  | some size =>
    obtain ⟨mem₁, hload, h⟩ := bind_eq_ok.1 h
    obtain ⟨mem₂, hargs, h⟩ := bind_eq_ok.1 h
    obtain rfl := Option.some.inj (Except.ok.inj h)
    refine ⟨fs', mem₂, ?_⟩
    unfold doExec
    rw [hpath, ok_bind, hread, ok_bind]
    dsimp only
    rw [hload, ok_bind, hargs, ok_bind]

/-- An exec that fails leaves the table as it is. -/
theorem doExec_of_none {fs fs' : Fs} {src : Slot} {retval : Int}
    (h : execName mm fs k src = .ok none) (hexec : doExec mm fs k src = .ok (retval, fs', k')) :
    k'.procTable = k.procTable := by
  unfold execName at h
  unfold doExec at hexec
  obtain ⟨path, hpath, h⟩ := bind_eq_ok.1 h
  obtain ⟨⟨size, fs₁, mem⟩, hread, h⟩ := bind_eq_ok.1 h
  rw [hpath, ok_bind, hread, ok_bind] at hexec
  cases size with
  | none => rw [← (Prod.mk.inj (Prod.mk.inj (Except.ok.inj hexec)).2).2]
  | some size =>
    obtain ⟨mem₁, -, h⟩ := bind_eq_ok.1 h
    obtain ⟨mem₂, -, h⟩ := bind_eq_ok.1 h
    exact nomatch Except.ok.inj h

/-! ## A step -/

/-- What a step does to the table. -/
inductive PmOutcome (mm : MmEnv) (k : Kernel) : PmAct → Kernel → Prop
  | forked (pid c : Slot) (base : BitVec 32) (k' : Kernel) : Forks mm k pid c base k' →
    PmOutcome mm k (.fork pid (some c)) k'
  | full (pid : Slot) : PmOutcome mm k (.fork pid none) k
  | renamed (fs : Fs) (src : Slot) (path : List Byte) (k' : Kernel) : path.length < nameSize →
    (∀ q, k'.procTable q = if q = src then { k.procTable src with
      pName := path.map fun c : Byte => Char.ofNat c.toNat } else k.procTable q) →
    PmOutcome mm k (.exec fs src (some path)) k'
  | refused (fs : Fs) (src : Slot) (k' : Kernel) : k'.procTable = k.procTable →
    PmOutcome mm k (.exec fs src none) k'
  | other (a : MmAct) (k' : Kernel) : (∀ q, Kept (k.procTable q) (k'.procTable q)) →
    PmOutcome mm k (.other a) k'

theorem pmStep_outcome {a : PmAct} (hs : PmStep mm k a k') : PmOutcome mm k a k' := by
  cases a with
  | fork pid child =>
    cases child with
    | none =>
      obtain rfl := (forkProc_none hs.2).2
      exact .full pid
    | some c =>
      obtain ⟨base, hf⟩ := forkProc_forks hs.2
      exact .forked pid c base k' hf
  | exec fs src path =>
    obtain ⟨-, hname, retval, fs', hexec⟩ := hs
    cases path with
    | none => exact .refused fs src k' (doExec_of_none hname hexec)
    | some path =>
      obtain ⟨fs₁, mem, heq⟩ := doExec_of_name hname
      rw [heq] at hexec
      split_ifs at hexec with hlong
      obtain ⟨-, rfl⟩ := Prod.mk.inj (Prod.mk.inj (Except.ok.inj hexec)).2
      exact .renamed fs src path _ (not_le.1 hlong) fun q => Kernel.set_procTable _ _ q _
  | other a => exact .other a k' (mmStep_kept hs.1 hs.2)

/-- A run without an exec is one of these runs. -/
theorem exists_pmRun {t : List MmAct} (h : Run Start (MmStep mm) t k) :
    ∃ t', Run Start (PmStep mm) t' k := by
  refine h.invariant (P := fun _ k => ∃ t', Run Start (PmStep mm) t' k)
    (fun k hk => ⟨_, .start hk⟩) ?_
  rintro t k a k' ⟨t', hr⟩ hs
  by_cases ha : ∃ pid, a = .fork pid
  · obtain ⟨pid, rfl⟩ := ha
    simp only [MmStep, mmStep] at hs
    split_ifs at hs with hmm
    obtain ⟨⟨c, k₁⟩, hf, rfl⟩ := Option.map_eq_some_iff.1 hs
    exact ⟨.fork pid c :: t', .snoc hr ⟨hmm, toOption_eq_some.1 hf⟩⟩
  · exact ⟨.other a :: t', .snoc hr ⟨fun pid hp => ha ⟨pid, hp⟩, hs⟩⟩

end MyOS
