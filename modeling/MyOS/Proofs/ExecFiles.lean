import MyOS.DoExec
import MyOS.Lib.Run
import MyOS.Proofs.ForkQueue
import MyOS.Proofs.FsOutcome

/-!
# What exec leaves open

`do_exec` asks for the status of the file, opens it and reads it; the status puts back the inode it
gets, and nothing closes the descriptor. So a request keeps the memory manager's descriptors and
the counts of the inodes just when it does not get as far as opening the file.
-/

namespace MyOS

open Memory Block

variable {fs fs' : Fs} {mm : MmEnv} {k : Kernel} {src : Slot}

/-- The open files of the memory manager, the descriptors in use and the counted inodes are the
same. -/
structure SameFiles (fs fs' : Fs) : Prop where
  filp : fs'.filp taskMm = fs.filp taskMm
  used : ∀ d, (fs'.fDescTable d).fdInode = none ↔ (fs.fDescTable d).fdInode = none
  count : ∀ p, (fs'.inodeTable p).iCnt = (fs.inodeTable p).iCnt
  num : ∀ p, (fs.inodeTable p).iCnt ≠ 0 → (fs'.inodeTable p).iNum = (fs.inodeTable p).iNum

namespace SameFiles

theorem refl (fs : Fs) : SameFiles fs fs := ⟨rfl, fun _ => .rfl, fun _ => rfl, fun _ _ => rfl⟩

theorem trans {fs₁ : Fs} (h : SameFiles fs fs₁) (h' : SameFiles fs₁ fs') : SameFiles fs fs' where
  filp := h'.filp.trans h.filp
  used d := (h'.used d).trans (h.used d)
  count p := (h'.count p).trans (h.count p)
  num p hp := (h'.num p (by rwa [h.count p])).trans (h.num p hp)

end SameFiles

/-! ## stat -/

/-- An inode that is got and put back is counted as before. -/
theorem GotInode.sameFiles {num : Int} {fs₁ : Fs} {p : Entry} (h : GotInode fs num (some p) fs₁) :
    SameFiles fs (fs₁.setInode p fun x => { x with iCnt := x.iCnt - 1 }) := by
  cases h with
  | hit _ hnum hcnt hn =>
    refine ⟨rfl, fun _ => .rfl, fun q => ?_, fun q _ => ?_⟩
    · rw [Fs.setInode_inodeTable]
      split_ifs with hq
      · rw [hq, Fs.setInode_inodeTable, if_pos rfl]
        exact Int.add_sub_cancel _ _
      · rw [Fs.setInode_inodeTable, if_neg hq]
    · rw [Fs.setInode_inodeTable]
      split_ifs with hq
      · rw [hq, Fs.setInode_inodeTable, if_pos rfl]
      · rw [Fs.setInode_inodeTable, if_neg hq]
  | miss _ hnum hnone hzero hoff =>
    refine ⟨rfl, fun _ => .rfl, fun q => ?_, fun q hcnt => ?_⟩
    · rw [Fs.setInode_inodeTable]
      split_ifs with hq
      · rw [hq, Fs.setInode_inodeTable, if_pos rfl, hzero]
        rfl
      · rw [Fs.setInode_inodeTable, if_neg hq]
    · have hq : q ≠ p := by
        rintro rfl
        exact hcnt hzero
      rw [Fs.setInode_inodeTable, if_neg hq, Fs.setInode_inodeTable, if_neg hq]

theorem doStat_sameFiles {user : Addr → Byte} {msg : Message} {s : Option Stat}
    (h : doStat user fs msg = .ok (s, fs')) : SameFiles fs fs' := by
  cases s with
  | none => exact (doStat_none h).1 ▸ .refl fs
  | some s =>
    obtain ⟨path, p, fs₁, -, hgot, -, -, rfl⟩ := doStat_some h
    exact hgot.sameFiles

/-! ## The request -/

/-- The path of the request names a file: `search_file` finds it for `stat`, and for `open` after
it. -/
def ExecFinds (mm : MmEnv) (fs : Fs) (k : Kernel) (src : Slot) : Prop :=
  ∃ path s fs₁, getPath (userMem k src) (Message.load k.mem mm.mmMsg) = .ok path ∧
    doStat (textAt path) fs (nameMsg path 0) = .ok (some s, fs₁) ∧ searchFile fs₁ path ≠ 0

theorem mmRead_filp {mem mem' : Mem} {fd cnt : BitVec 32}
    (h : mmRead fs mem fd cnt = .ok (fs', mem')) : fs'.filp = fs.filp := by
  unfold mmRead at h
  obtain ⟨desc, -, h⟩ := bind_eq_ok.1 h
  cases desc with
  | none => rw [← (Prod.mk.inj (Except.ok.inj h)).1]
  | some dp =>
    dsimp only at h
    split_ifs at h with hchar
    obtain ⟨⟨r, fs₁⟩, hf, h⟩ := bind_eq_ok.1 h
    rw [← (Prod.mk.inj (Except.ok.inj h)).1]
    exact (rdwtFile_ok hf).2

/-- `stat` finds the file and `open` finds it again, or nothing is left open. -/
theorem execRead_ok {mem mem' : Mem} {path : List Byte} {size : Option (BitVec 32)}
    (hpath : path.length < maxPath) (hnull : ∀ c ∈ path, c ≠ 0)
    (h : execRead fs mem path = .ok (size, fs', mem')) :
    (∃ s fs₁, doStat (textAt path) fs (nameMsg path 0) = .ok (some s, fs₁) ∧
      searchFile fs₁ path ≠ 0) ∧ (∃ fd, fs.filp taskMm fd = none ∧ fs'.filp taskMm fd ≠ none) ∨
    (∀ s fs₁, doStat (textAt path) fs (nameMsg path 0) = .ok (some s, fs₁) →
      searchFile fs₁ path = 0) ∧ SameFiles fs fs' := by
  unfold execRead at h
  obtain ⟨⟨s, fs₁⟩, hstat, h⟩ := bind_eq_ok.1 h
  have hsame := doStat_sameFiles hstat
  cases s with
  | none =>
    refine .inr ⟨fun s fs₂ h₂ => ?_, ?_⟩
    · exact nomatch (Prod.mk.inj (Except.ok.inj (hstat.symm.trans h₂))).1
    · rw [← (Prod.mk.inj (Prod.mk.inj (Except.ok.inj h)).2).1]
      exact hsame
  | some s =>
    obtain ⟨⟨fd, fs₂⟩, hopen, hrest⟩ := bind_eq_ok.1 h
    clear h
    dsimp only at hrest
    have hto : ∀ s' fs', doStat (textAt path) fs (nameMsg path 0) = .ok (some s', fs') →
        fs' = fs₁ := fun s' fs' h' => (Prod.mk.inj (Except.ok.inj (h'.symm.trans hstat))).2
    by_cases hfound : searchFile fs₁ path = 0
    · obtain ⟨rfl, rfl⟩ := doOpen_absent (getPath_textAt hpath hnull) rfl hfound hopen
      refine .inr ⟨fun s' fs' h' => hto s' fs' h' ▸ hfound, ?_⟩
      rw [if_pos rfl] at hrest
      rw [← (Prod.mk.inj (Prod.mk.inj (Except.ok.inj hrest)).2).1]
      exact hsame
    · obtain ⟨e, hfd, hfree, hset⟩ := doOpen_found (getPath_textAt hpath hnull) rfl hfound hopen
      refine .inl ⟨⟨s, fs₁, hstat, hfound⟩, e, by rw [← hsame.filp, hfree], ?_⟩
      rw [if_neg (by omega), assert_bind_eq_ok] at hrest
      obtain ⟨⟨fs₃, mem₃⟩, hread, hrest⟩ := bind_eq_ok.1 hrest.2
      rw [← (Prod.mk.inj (Prod.mk.inj (Except.ok.inj hrest)).2).1, mmRead_filp hread]
      exact hset

/-- What a `do_exec` that returns has done: it has read the file and, where there was one, has put
its segments and the arguments to the caller. -/
inductive ExecDone (mm : MmEnv) (fs : Fs) (k : Kernel) (src : Slot) : Int → Fs → Kernel → Prop
  | refused (path : List Byte) (fs' : Fs) (mem : Mem) :
    getPath (userMem k src) (Message.load k.mem mm.mmMsg) = .ok path →
    execRead fs k.mem path = .ok (none, fs', mem) → ExecDone mm fs k src (-1) fs' { k with mem }
  | loaded (path : List Byte) (size : BitVec 32) (fs' : Fs) (mem₀ mem₁ mem₂ : Mem) :
    getPath (userMem k src) (Message.load k.mem mm.mmMsg) = .ok path →
    execRead fs k.mem path = .ok (some size, fs', mem₀) →
    loadSegments k src procImageSizeDefault (2 ^ 16) 0 mem₀ = .ok mem₁ →
    copyArgs k src procImageSizeDefault (Message.load mem₁ mm.mmMsg) mem₁ = .ok mem₂ →
    path.length < nameSize → ExecDone mm fs k src 0 fs' ({ k with mem := mem₂ }.set src fun p =>
      { p with pName := path.map fun c : Byte => Char.ofNat c.toNat })

theorem doExec_done {r : Int} {k' : Kernel} (h : doExec mm fs k src = .ok (r, fs', k')) :
    ExecDone mm fs k src r fs' k' := by
  unfold doExec at h
  obtain ⟨path, hpath, h⟩ := bind_eq_ok.1 h
  obtain ⟨⟨size, fs₁, mem₀⟩, hread, h⟩ := bind_eq_ok.1 h
  cases size with
  | none =>
    cases h
    exact .refused path _ mem₀ hpath hread
  | some size =>
    obtain ⟨mem₁, hload, h⟩ := bind_eq_ok.1 h
    obtain ⟨mem₂, hcopy, h⟩ := bind_eq_ok.1 h
    split_ifs at h with hlen
    cases h
    exact .loaded path size _ mem₀ mem₁ mem₂ hpath hread hload hcopy (by omega)

theorem ExecDone.read {r : Int} {k' : Kernel} (h : ExecDone mm fs k src r fs' k') :
    ∃ path size mem, getPath (userMem k src) (Message.load k.mem mm.mmMsg) = .ok path ∧
      execRead fs k.mem path = .ok (size, fs', mem) := by
  cases h with
  | refused path _ mem hpath hread => exact ⟨path, _, mem, hpath, hread⟩
  | loaded path size _ mem₀ _ _ hpath hread => exact ⟨path, _, mem₀, hpath, hread⟩

theorem doExec_files {r : Int} {k' : Kernel} (h : doExec mm fs k src = .ok (r, fs', k')) :
    SameFiles fs fs' ↔ ¬ ExecFinds mm fs k src := by
  obtain ⟨path, size, mem, hpath, hread⟩ := (doExec_done h).read
  obtain ⟨hlen, hnull⟩ := getPath_ok hpath
  rcases execRead_ok hlen hnull hread with ⟨⟨s, fs₂, hstat, hfound⟩, e, hfree, hset⟩ | ⟨hno, hsame⟩
  · refine iff_of_false (fun hsame => ?_) (not_not_intro ⟨path, s, fs₂, hpath, hstat, hfound⟩)
    rw [hsame.filp] at hset
    exact hset hfree
  · refine iff_of_true hsame ?_
    rintro ⟨path', s, fs₂, hpath', hstat, hfound⟩
    obtain rfl := Except.ok.inj (hpath'.symm.trans hpath)
    exact hfound (hno s fs₂ hstat)

/-- The root directory, once in the table, is not replaced by the inode that `stat` gets. -/
theorem GotInode.searchFile_eq {num : Int} {fs₁ : Fs} {p : Entry}
    (h : GotInode fs num (some p) fs₁) (hroot : (fs.inodeTable fs.rootInode).iCnt ≠ 0)
    (path : List Byte) :
    searchFile (fs₁.setInode p fun x => { x with iCnt := x.iCnt - 1 }) path =
      searchFile fs path := by
  have hdir : ∀ fs' : Fs, fs'.disk = fs.disk → fs'.rootInode = fs.rootInode →
      (fs'.inodeTable fs.rootInode).iNum = (fs.inodeTable fs.rootInode).iNum →
      (fs'.inodeTable fs.rootInode).toDiskInode = (fs.inodeTable fs.rootInode).toDiskInode →
      searchFile fs' path = searchFile fs path := by
    intro fs' hdisk hr hnum hdi
    unfold searchFile
    dsimp only
    rw [hdisk, hr, hnum, hdi]
  cases h with
  | hit _ hnum hcnt hn =>
    refine hdir _ rfl rfl ?_ ?_
    all_goals
      rw [Fs.setInode_inodeTable]
      split_ifs with hq
      · rw [Fs.setInode_inodeTable, if_pos rfl, hq]
      · rw [Fs.setInode_inodeTable, if_neg hq]
  | miss _ hnum hnone hzero hoff =>
    have hne : fs.rootInode ≠ p := fun he => hroot (he ▸ hzero)
    refine hdir _ rfl rfl ?_ ?_
    all_goals
      rw [Fs.setInode_inodeTable, if_neg hne, Fs.setInode_inodeTable, if_neg hne]

/-- With the root directory in the table, a request finds a file just when `search_file` does in
the state before it. -/
theorem execFinds_iff {r : Int} {k' : Kernel} (h : doExec mm fs k src = .ok (r, fs', k'))
    (hroot : (fs.inodeTable fs.rootInode).iCnt ≠ 0) : ExecFinds mm fs k src ↔
      ∃ path, getPath (userMem k src) (Message.load k.mem mm.mmMsg) = .ok path ∧
        searchFile fs path ≠ 0 := by
  obtain ⟨path, size, mem, hpath, hread⟩ := (doExec_done h).read
  obtain ⟨⟨s, fs₂⟩, hstat, -⟩ := bind_eq_ok.1 hread
  obtain ⟨hlen, hnull⟩ := getPath_ok hpath
  have hsame : searchFile fs₂ path = searchFile fs path := by
    cases s with
    | none => rw [(doStat_none hstat).1]
    | some s =>
      obtain ⟨path₁, p, fs₃, -, hgot, -, -, rfl⟩ := doStat_some hstat
      exact hgot.searchFile_eq hroot path
  constructor
  · rintro ⟨path', s', fs', hpath', hstat', hfound⟩
    obtain rfl := Except.ok.inj (hpath'.symm.trans hpath)
    obtain ⟨-, rfl⟩ := Prod.mk.inj (Except.ok.inj (hstat'.symm.trans hstat))
    exact ⟨path', hpath, hsame ▸ hfound⟩
  · rintro ⟨path', hpath', hfound⟩
    obtain rfl := Except.ok.inj (hpath'.symm.trans hpath)
    cases s with
    | none =>
      obtain ⟨-, path, hget, hno⟩ := doStat_none hstat
      rw [getPath_textAt hlen hnull] at hget
      exact absurd (Except.ok.inj hget ▸ hno) hfound
    | some s => exact ⟨path', s, fs₂, hpath, hstat, hsame ▸ hfound⟩

/-- An exec request, of the process whose message the memory manager has in the kernel given. -/
def ExecStep (mm : MmEnv) (fs : Fs) (e : Kernel × Slot) (fs' : Fs) : Prop :=
  ∃ r k', doExec mm fs e.1 e.2 = .ok (r, fs', k')

/-- In every run of requests that find no file, nothing is left open, and a further request leaves
nothing open just when it finds none either. -/
theorem exec_keeps_files {fs₀ : Fs} {t : List (Kernel × Slot)}
    (h : Run (· = fs₀) (fun fs e fs' => ExecStep mm fs e fs' ∧ ¬ ExecFinds mm fs e.1 e.2) t fs) :
    SameFiles fs₀ fs ∧ ∀ e fs', ExecStep mm fs e fs' →
      (SameFiles fs fs' ↔ ¬ ExecFinds mm fs e.1 e.2) := by
  refine ⟨?_, fun e fs' ⟨r, k', hs⟩ => doExec_files hs⟩
  refine h.invariant (P := fun _ fs => SameFiles fs₀ fs) ?_ ?_
  · rintro fs rfl
    exact .refl fs
  · rintro t fs e fs' hsame ⟨⟨r, k', hs⟩, hno⟩
    exact hsame.trans ((doExec_files hs).2 hno)

/-! ## On a new file system -/

/-- A memory with the name at address 0 and, in the memory manager's message, its length. -/
def namedAt0 (mm : MmEnv) (c : Byte) : Mem := fun a =>
  if a = mm.mmMsg + 12 then 1 else if a = 0 then c else 0

/-- `INIT` asks for "x" twice, and there is none. -/
theorem exec_keeps_files_absent : ∃ fs fs', initFs (fun _ => 0) 40000 = .ok fs ∧
    ExecStep mmEnv64 fs (kernelMain (namedAt0 mmEnv64 0x78) 0, init) fs' ∧
    SameFiles fs fs' ∧ ∀ e fs'', ExecStep mmEnv64 fs' e fs'' →
      (SameFiles fs' fs'' ↔ ¬ ExecFinds mmEnv64 fs' e.1 e.2) := by
  have hany : (initFs (fun _ => 0) 40000).toOption.any (fun fs =>
      (doExec mmEnv64 fs (kernelMain (namedAt0 mmEnv64 0x78) 0) init).toOption.any fun _ =>
        (doStat (textAt [0x78]) fs (nameMsg [0x78] 0)).toOption.any fun r =>
          r.1 = none) = true := by
    decide +kernel
  obtain ⟨fs, hfs, hany⟩ := exists_ok_of_any hany
  obtain ⟨⟨r, fs', k'⟩, hexec, hany⟩ := exists_ok_of_any hany
  obtain ⟨⟨s, fs₁⟩, hstat, hs⟩ := exists_ok_of_any hany
  obtain rfl : s = none := of_decide_eq_true hs
  have hstep : ExecStep mmEnv64 fs (kernelMain (namedAt0 mmEnv64 0x78) 0, init) fs' :=
    ⟨r, k', hexec⟩
  have hno : ¬ ExecFinds mmEnv64 fs (kernelMain (namedAt0 mmEnv64 0x78) 0) init := by
    rintro ⟨path, s, fs₂, hpath, hstat', -⟩
    have : getPath (userMem (kernelMain (namedAt0 mmEnv64 0x78) 0) init)
      (Message.load (kernelMain (namedAt0 mmEnv64 0x78) 0).mem mmEnv64.mmMsg) = .ok [0x78] := by
      decide
    obtain rfl := Except.ok.inj (this.symm.trans hpath)
    exact nomatch (Prod.mk.inj (Except.ok.inj (hstat.symm.trans hstat'))).1
  exact ⟨fs, fs', hfs, hstep, exec_keeps_files (.snoc (.start rfl) ⟨hstep, hno⟩)⟩

/-- `INIT` asks for ".", and the memory manager keeps a descriptor of it. -/
theorem exec_leaves_open : ∃ fs fs' k', initFs (fun _ => 0) 40000 = .ok fs ∧
    doExec mmEnv64 fs (kernelMain (namedAt0 mmEnv64 0x2E) 0) init = .ok (0, fs', k') ∧
    ¬ SameFiles fs fs' := by
  have hany : (initFs (fun _ => 0) 40000).toOption.any (fun fs =>
      (doExec mmEnv64 fs (kernelMain (namedAt0 mmEnv64 0x2E) 0) init).toOption.any fun r =>
        r.1 = 0 ∧ fs.filp taskMm 0 = none ∧ r.2.1.filp taskMm 0 = some 0) = true := by
    decide +kernel
  obtain ⟨fs, hfs, hany⟩ := exists_ok_of_any hany
  obtain ⟨⟨r, fs', k'⟩, hexec, hr⟩ := exists_ok_of_any hany
  obtain ⟨rfl, hfree, hset⟩ : r = 0 ∧ _ := of_decide_eq_true hr
  refine ⟨fs, fs', k', hfs, hexec, fun hsame => ?_⟩
  rw [hsame.filp, hfree] at hset
  exact nomatch hset

end MyOS
