import MyOS.Proofs.KernelAsm

/-!
# Contexts are saved and restored

A handler that has not ended has left a frame: of a process among its saved registers, of the
kernel on the kernel's stack in front of those before it. C code writes to neither, so that the way
back finds in each frame what was put there.
-/

namespace MyOS

open Memory

variable {l : AsmLayout} {m m' : Machine} {mem mem' : Mem} {ret : Addr}

/-! ## Where things are -/

namespace AsmLayout

theorem within_iff_used {a x : Addr} {n : ℕ} (hn : n ≤ l.used a) :
    Within x a n ↔ l.used x ≤ l.used a ∧ l.used a < l.used x + n := by
  unfold Within used at *
  bv_omega

theorem within_used_iff {a x : Addr} :
    Within x a (l.used a) ↔ 0 < l.used x ∧ l.used x ≤ l.used a := by
  rw [within_iff_used le_rfl]
  omega

theorem used_add {a : Addr} {n : ℕ} (hn : n ≤ l.used a) :
    l.used (a + BitVec.ofNat 32 n) = l.used a - n := by
  unfold used at *
  bv_omega

theorem used_sub {a : Addr} {n : ℕ} (hn : l.used a + n < 2 ^ 32) :
    l.used (a - BitVec.ofNat 32 n) = l.used a + n := by
  unfold used at *
  bv_omega

theorem eq_of_used {a b : Addr} {n : ℕ} (h : l.used b = l.used a + n) :
    a = b + BitVec.ofNat 32 n := by
  unfold used at h
  bv_omega

theorem slot_le (l : AsmLayout) (p : Slot) :
    p.val * l.sizeofProc + (pLdtSel + 2) ≤ (nrTasks + nrProcs) * l.sizeofProc := by
  calc p.val * l.sizeofProc + (pLdtSel + 2) ≤ p.val * l.sizeofProc + l.sizeofProc :=
        Nat.add_le_add_left l.sizeofProc_le _
    _ = (p.val + 1) * l.sizeofProc := (Nat.succ_mul _ _).symm
    _ ≤ (nrTasks + nrProcs) * l.sizeofProc := Nat.mul_le_mul_right _ p.isLt

theorem within_regs {x : Addr} {p : Slot} : Within x (l.regs p) (pLdtSel + 2) ↔
    p.val * l.sizeofProc ≤ (x - l.procTable).toNat ∧
      (x - l.procTable).toNat < p.val * l.sizeofProc + (pLdtSel + 2) :=
  within_add (Nat.le_trans (l.slot_le p) l.procTable_le)

/-- The saved registers of one process are behind those of another. -/
theorem regs_apart {p q : Slot} (h : p ≠ q) :
    Apart (l.regs p) (pLdtSel + 2) (l.regs q) (pLdtSel + 2) := by
  have hbehind : ∀ {a b : ℕ}, a < b → a * l.sizeofProc + (pLdtSel + 2) ≤ b * l.sizeofProc :=
    fun {a b} hab => calc
      a * l.sizeofProc + (pLdtSel + 2) ≤ (a + 1) * l.sizeofProc := by
        rw [Nat.succ_mul]
        exact Nat.add_le_add_left l.sizeofProc_le _
      _ ≤ b * l.sizeofProc := Nat.mul_le_mul_right _ hab
  intro x hp hq
  rw [within_regs] at hp hq
  rcases Nat.lt_or_gt_of_ne (Fin.val_ne_of_ne h) with h' | h'
  · have := hbehind h'
    omega
  · have := hbehind h'
    omega

/-- The kernel's stack is not among the saved registers. -/
theorem not_saved_of_used {x : Addr} (h0 : 0 < l.used x) (h : l.used x ≤ stackSpace) :
    ¬ l.Saved x := by
  rintro ⟨p, hp⟩
  rw [within_regs] at hp
  have hp' := l.slot_le p
  refine l.apart x ?_ (show (x - l.procTable).toNat < _ by omega)
  unfold Within used stackSpace at *
  bv_omega

end AsmLayout

/-! ## Frames -/

theorem length_stackframe (c : Cpu) (kernelEsp retaddr : BitVec 32) :
    (c.stackframe kernelEsp retaddr).length = 18 := rfl

theorem HoldsRegs.congr {a : Addr} {c : Cpu} (h : HoldsRegs mem a c)
    (hmem : ∀ x, Within x a pLdtSel → mem' x = mem x) : HoldsRegs mem' a c := by
  obtain ⟨kernelEsp, retaddr, hw⟩ := h
  exact ⟨kernelEsp, retaddr, hw.congr (by rw [length_stackframe]; decide) hmem⟩

/-- Two sets of registers that a frame holds have one `cs`. -/
theorem HoldsRegs.cs_eq {a : Addr} {c c' : Cpu} (h : HoldsRegs mem a c) (h' : HoldsRegs mem a c') :
    c.cs = c'.cs := by
  obtain ⟨kernelEsp, retaddr, hw⟩ := h
  obtain ⟨kernelEsp', retaddr', hw'⟩ := h'
  have hcs := hw.load (i := 14) (by rw [length_stackframe]; decide)
  have hcs' := hw'.load (i := 14) (by rw [length_stackframe]; decide)
  have hwide : c.cs.setWidth 32 = c'.cs.setWidth 32 := hcs.symm.trans hcs'
  simpa using congrArg (BitVec.setWidth 16) hwide

theorem not_inUser_of_cs {c : Cpu} (h : c.cs = selectorKernelCs) : ¬ c.InUser := by
  unfold Cpu.InUser
  rw [h]
  decide

/-- What a handler stores is put in the frame of those who have asked for it. -/
theorem wordsAt_stored {a : Addr} {n : ℕ} {c cpu : Cpu} {kernelEsp retaddr : BitVec 32}
    (hn : eaxreg / 4 < n) (h : WordsAt mem a ((c.stackframe kernelEsp retaddr).take n))
    (hesi : cpu.esi = a) : ∀ entry : AsmEntry, WordsAt (entry.stored cpu mem) a
      (((entry.result cpu.eax c).stackframe kernelEsp retaddr).take n)
  | .hwint _ => h
  | .sysCall => by
    have hlen : ((c.stackframe kernelEsp retaddr).take n).length = min n 18 := by
      rw [List.length_take, length_stackframe]
    have hst := h.store (v := cpu.eax) (by rw [hlen]; omega) (i := eaxreg / 4)
      (by rw [hlen]; exact lt_min hn (by decide))
    rw [← List.take_set] at hst
    exact hesi ▸ hst

theorem HoldsRegs.stored {a : Addr} {c cpu : Cpu} (h : HoldsRegs mem a c) (hesi : cpu.esi = a)
    (entry : AsmEntry) : HoldsRegs (entry.stored cpu mem) a (entry.result cpu.eax c) := by
  obtain ⟨kernelEsp, retaddr, hw⟩ := h
  exact ⟨kernelEsp, retaddr, wordsAt_stored (n := 18) (by decide) hw hesi entry⟩

/-! ## The kernel's stack -/

/-- The calls that have not returned, each with what its handler goes on with behind it. -/
inductive Stacked (l : AsmLayout) (mem : Mem) : List Call → List (AsmEntry × Origin) → Prop
  | nil : Stacked l mem [] []
  | proc {c : Call} {p : Slot} : c.esi = l.regs p → l.used c.top = 4 →
      l.used c.esp = l.used c.top + (4 + 4 * c.entry.args) → load32 mem c.top = l.restart →
        Stacked l mem [c] [(c.entry, .proc p)]
  | kernel {c c' : Call} {cs : List Call} {e : AsmEntry × Origin} {nest : List (AsmEntry × Origin)}
    {cpu : Cpu} : c.esi = c.top + 4 → l.used c.top = l.used cpu.esp + 68 →
      l.used c.esp = l.used c.top + (4 + 4 * c.entry.args) → l.used c.esp ≤ stackSpace →
        load32 mem c.top = l.restartReenter →
          (∃ kernelEsp retaddr, WordsAt mem (c.top + 4)
            ((cpu.stackframe kernelEsp retaddr).take 16)) →
            ¬ cpu.InUser → cpu.ss = selectorKernelDs → l.used c'.top ≤ l.used cpu.esp →
              Stacked l mem (c' :: cs) (e :: nest) →
                Stacked l mem (c :: c' :: cs) ((c.entry, .kernel cpu) :: e :: nest)

theorem Stacked.calls_nil {calls : List Call} (h : Stacked l mem calls []) : calls = [] := by
  cases h with
  | nil => rfl

theorem Stacked.nest_nil {nest : List (AsmEntry × Origin)} (h : Stacked l mem [] nest) :
    nest = [] := by
  cases h with
  | nil => rfl

theorem Stacked.top_lt {c : Call} {cs : List Call} {nest : List (AsmEntry × Origin)}
    (h : Stacked l mem (c :: cs) nest) : l.used c.top < l.used c.esp := by
  cases h with
  | proc _ _ hesp _ => omega
  | kernel _ _ hesp _ _ _ _ _ _ _ => omega

theorem AsmEntry.args_le : ∀ entry : AsmEntry, entry.args ≤ 4
  | .hwint _ => Nat.le_of_ble_eq_true rfl
  | .sysCall => le_rfl

theorem Stacked.esp_le {c : Call} {cs : List Call} {nest : List (AsmEntry × Origin)}
    (h : Stacked l mem (c :: cs) nest) : l.used c.esp ≤ stackSpace := by
  have := c.entry.args_le
  unfold stackSpace
  cases h with
  | proc _ htop hesp _ => omega
  | kernel _ _ _ hle _ _ _ _ _ _ => exact hle

theorem load32_congr_used {a : Addr} (h : 4 ≤ l.used a)
    (hmem : ∀ x, 0 < l.used x → l.used x ≤ l.used a → mem' x = mem x) :
    load32 mem' a = load32 mem a := by
  refine load32_congr fun i hi => hmem _ ?_ ?_
  · rw [AsmLayout.used_add (by omega)]
    omega
  · rw [AsmLayout.used_add (by omega)]
    omega

/-- Nothing but what is behind the arguments of the newest call counts. -/
theorem Stacked.congr {calls : List Call} {nest : List (AsmEntry × Origin)}
    (h : Stacked l mem calls nest) (hmem : ∀ c ∈ calls.head?, ∀ x, 0 < l.used x →
      l.used x ≤ l.used c.top → mem' x = mem x) : Stacked l mem' calls nest := by
  induction h with
  | nil => exact .nil
  | @proc c p hesi htop hesp hlabel =>
    refine .proc hesi htop hesp ?_
    rw [← hlabel]
    exact load32_congr_used (Nat.le_of_eq htop.symm) (hmem c rfl)
  | @kernel c c' cs e nest cpu hesi htop hesp hle hlabel hframe hu hss hbelow hrest ih =>
    have hmem' := hmem c rfl
    refine .kernel hesi htop hesp hle ?_ ?_ hu hss hbelow (ih fun c₁ hc₁ x h0 hx => ?_)
    · rw [← hlabel]
      exact load32_congr_used (by omega) hmem'
    · obtain ⟨kernelEsp, retaddr, hw⟩ := hframe
      refine ⟨kernelEsp, retaddr, hw.congr (by rw [List.length_take, length_stackframe]; decide)
        fun x hx => ?_⟩
      rw [List.length_take, length_stackframe, show c.top + 4 = c.top + BitVec.ofNat 32 4 from rfl,
        AsmLayout.within_iff_used (l := l) (by rw [AsmLayout.used_add (by omega)]; omega),
        AsmLayout.used_add (by omega)] at hx
      exact hmem' x (by omega) (by omega)
    · obtain rfl : c' = c₁ := Option.some.inj hc₁
      have := hrest.top_lt
      exact hmem' x h0 (by omega)

/-- Each handler takes room on the stack. -/
theorem Stacked.length_le {calls : List Call} {nest : List (AsmEntry × Origin)}
    (h : Stacked l mem calls nest) : nest.length ≤ stackSpace := by
  have hused : ∀ c ∈ calls.head?, nest.length ≤ l.used c.top ∧ l.used c.top ≤ stackSpace := by
    induction h with
    | nil => exact fun c hc => absurd hc (by simp)
    | @proc c p hesi htop hesp hlabel =>
      rintro _ ⟨⟩
      simp only [List.length_singleton, stackSpace]
      omega
    | @kernel c c' cs e nest cpu hesi htop hesp hle hlabel hframe hu hss hbelow hrest ih =>
      rintro _ ⟨⟩
      have := (ih c' rfl).1
      simp only [List.length_cons] at this ⊢
      omega
  cases h with
  | nil => exact Nat.zero_le _
  | @proc c _ _ _ _ _ => exact Nat.le_trans (hused c rfl).1 (hused c rfl).2
  | @kernel c _ _ _ _ _ _ _ _ _ _ _ _ _ _ _ => exact Nat.le_trans (hused c rfl).1 (hused c rfl).2

/-! ## The machine and its contexts -/

variable {sel : Slot → BitVec 16} {s : Contexts}

/-- The machine is in these contexts: what runs is in the registers, and what does not run is in a
frame. Without a handler, the stack and the LDT for the next interrupt are those of the process. -/
structure Mirrors (l : AsmLayout) (sel : Slot → BitVec 16) (m : Machine) (s : Contexts) :
    Prop where
  cpu : m.cpu = s.cpu
  ready : m.pProcReady = l.regs s.ready
  user : s.nest = [] → s.cpu.InUser ∧
    m.sp0 = l.regs s.ready + BitVec.ofNat 32 pStacktop ∧ m.ldtr = sel s.ready
  kernel : s.nest ≠ [] → ¬ s.cpu.InUser ∧ s.cpu.ss = selectorKernelDs ∧
    (s.procs s.ready).InUser
  esp : ∀ c ∈ m.calls.head?, l.used c.top ≤ l.used s.cpu.esp ∧ l.used s.cpu.esp ≤ stackSpace
  held : ∀ p, s.nest ≠ [] ∨ p ≠ s.ready → HoldsRegs m.mem (l.regs p) (s.procs p)
  sels : ∀ p, load16 m.mem (l.regs p + BitVec.ofNat 32 pLdtSel) = sel p
  stacked : Stacked l m.mem m.calls s.nest
  reenter : m.kReenter = BitVec.ofNat 32 s.nest.length - 1

namespace Mirrors

theorem inUser_iff (h : Mirrors l sel m s) : m.cpu.InUser ↔ s.nest = [] := by
  rw [h.cpu]
  refine ⟨fun hu => ?_, fun hn => (h.user hn).1⟩
  by_contra hn
  exact (h.kernel hn).1 hu

/-- `k_reenter` becomes 0 just where a process has been interrupted. -/
theorem reenter_succ (h : Mirrors l sel m s) : m.kReenter + 1 = 0 ↔ s.nest = [] := by
  have hlt : s.nest.length < 2 ^ 32 :=
    Nat.lt_of_le_of_lt h.stacked.length_le (by decide)
  rw [h.reenter, BitVec.sub_add_cancel, ← List.length_eq_zero_iff]
  constructor
  · intro h0
    have := congrArg BitVec.toNat h0
    rwa [BitVec.toNat_ofNat, Nat.mod_eq_of_lt hlt] at this
  · intro h0
    rw [h0]
    rfl

end Mirrors

/-- The selectors of the LDTs are as they were, where only the registers of one process have
changed. -/
theorem sels_congr {p q : Slot}
    (hmem : ∀ x, l.Saved x → ¬ Within x (l.regs q) pLdtSel → mem' x = mem x) :
    load16 mem' (l.regs p + BitVec.ofNat 32 pLdtSel) =
      load16 mem (l.regs p + BitVec.ofNat 32 pLdtSel) := by
  refine load16_congr fun x hx => ?_
  rw [within_add (by decide)] at hx
  have hp : Within x (l.regs p) (pLdtSel + 2) := hx.2
  refine hmem x ⟨p, hp⟩ fun hq => ?_
  by_cases h : p = q
  · subst h
    exact absurd hq (Nat.not_lt.2 hx.1)
  · exact AsmLayout.regs_apart h x hp (Nat.lt_of_lt_of_le hq (by decide))

theorem HoldsRegs.congr_other {p q : Slot} {c : Cpu} (h : HoldsRegs mem (l.regs p) c) (hne : p ≠ q)
    (hmem : ∀ x, l.Saved x → ¬ Within x (l.regs q) pLdtSel → mem' x = mem x) :
    HoldsRegs mem' (l.regs p) c := by
  refine h.congr fun x hx => ?_
  have hp : Within x (l.regs p) (pLdtSel + 2) := Nat.lt_of_lt_of_le hx (by decide)
  exact hmem x ⟨p, hp⟩ fun hq =>
    AsmLayout.regs_apart hne x hp (Nat.lt_of_lt_of_le hq (by decide))

theorem HoldsRegs.congr_saved {p : Slot} {c : Cpu} (h : HoldsRegs mem (l.regs p) c)
    (hmem : ∀ x, l.Saved x → mem' x = mem x) : HoldsRegs mem' (l.regs p) c :=
  h.congr fun x hx => hmem x ⟨p, Nat.lt_of_lt_of_le hx (by decide)⟩

theorem AsmLayout.Saved.not_within {x a : Addr} {n : ℕ} (hx : l.Saved x) (hn : n ≤ l.used a)
    (ha : l.used a ≤ stackSpace) : ¬ Within x a n := by
  intro hw
  rw [AsmLayout.within_iff_used hn] at hw
  exact AsmLayout.not_saved_of_used (by omega) (by omega) hx

/-! ## A handler is called -/

section Called

variable {entry : AsmEntry} {args : List (BitVec 32)}

theorem Called.exists_call (h : Called m m' entry args) (hargs : args.length = entry.args) :
    ∃ c : Call, m'.calls = c :: m.calls ∧ c.entry = entry ∧ c.esp = m'.cpu.esp ∧
      c.esi = m.cpu.esi ∧ c.top = m.cpu.esp := by
  refine ⟨_, h.calls, rfl, rfl, rfl, ?_⟩
  unfold Call.top
  rw [h.esp, hargs]
  exact BitVec.sub_add_cancel _ _

variable (hargs : args.length = entry.args) (hroom : l.used m.cpu.esp + 20 ≤ stackSpace)

include hargs hroom

theorem Called.used_esp (h : Called m m' entry args) :
    l.used m'.cpu.esp = l.used m.cpu.esp + (4 + 4 * entry.args) := by
  have := entry.args_le
  unfold stackSpace at hroom
  rw [h.esp, hargs, AsmLayout.used_sub (by omega)]

theorem Called.used_esp_le (h : Called m m' entry args) : l.used m'.cpu.esp ≤ stackSpace := by
  have := h.used_esp hargs hroom
  have := entry.args_le
  omega

/-- The call is written behind all that is on the stack. -/
theorem Called.mem_of_used (h : Called m m' entry args) {x : Addr}
    (hx : l.used x ≤ l.used m.cpu.esp) : m'.mem x = m.mem x := by
  have hesp := h.used_esp hargs hroom
  refine h.mem x fun hw => ?_
  rw [hargs, AsmLayout.within_iff_used (l := l) (by omega)] at hw
  omega

theorem Called.mem_of_saved (h : Called m m' entry args) {x : Addr} (hx : l.Saved x) :
    m'.mem x = m.mem x := by
  have hesp := h.used_esp hargs hroom
  have := entry.args_le
  exact h.mem x (hargs ▸ hx.not_within (by omega) (by omega))

/-- The call of the handler is the last one, and lies behind its `top`. -/
theorem Called.esp_bounds (h : Called m m' entry args) :
    ∀ c ∈ m'.calls.head?, l.used c.top ≤ l.used m'.cpu.esp ∧ l.used m'.cpu.esp ≤ stackSpace := by
  obtain ⟨c, hc, -, -, -, htop⟩ := h.exists_call hargs
  rw [hc]
  rintro _ ⟨⟩
  refine ⟨?_, h.used_esp_le hargs hroom⟩
  rw [htop, h.used_esp hargs hroom]
  exact Nat.le_add_right _ _

end Called

theorem mirrors_enter_user {m₁ : Machine} {entry : AsmEntry} {args : List (BitVec 32)}
    (h : Mirrors l sel m s) (hn : s.nest = []) (hargs : args.length = entry.args)
    (hsave : SaveDone m m₁ 18 ret (m.sp0 - 72) l.restart (l.stackTop - 4))
    (hcall : Called m₁ m' entry args) : Mirrors l sel m' (s.enter entry m'.cpu) := by
  obtain ⟨huser, hsp0, -⟩ := h.user hn
  have hframe : m.sp0 - 72 = l.regs s.ready := by
    rw [hsp0]
    exact BitVec.add_sub_cancel _ _
  have hused : l.used m₁.cpu.esp = 4 := by
    rw [hsave.esp, show l.stackTop - 4 = l.stackTop - BitVec.ofNat 32 4 from rfl]
    unfold AsmLayout.used
    bv_omega
  have hroom : l.used m₁.cpu.esp + 20 ≤ stackSpace := by
    rw [hused]
    decide
  have hcalls : m.calls = [] := by
    have hstacked := h.stacked
    rw [hn] at hstacked
    exact hstacked.calls_nil
  have hsaved : ∀ x, l.Saved x → ¬ Within x (l.regs s.ready) pLdtSel → m'.mem x = m.mem x := by
    intro x hx hout
    rw [hcall.mem_of_saved hargs hroom hx]
    refine hsave.mem x (hframe ▸ hout) (hsave.esp ▸ hx.not_within ?_ ?_)
    · exact Nat.le_of_eq hused.symm
    · rw [hused]
      decide
  have henter : s.enter entry m'.cpu = ⟨m'.cpu, Function.update s.procs s.ready s.cpu, s.ready,
      [(entry, .proc s.ready)]⟩ := by
    unfold Contexts.enter
    rw [hn]
  obtain ⟨c, hc, rfl, hcesp, hcesi, hctop⟩ := hcall.exists_call hargs
  have hm₁ := hsave.rest
  rw [henter]
  refine ⟨rfl, ?_, fun hne => absurd hne (List.cons_ne_nil _ _), fun _ => ⟨?_, ?_, ?_⟩,
    hcall.esp_bounds hargs hroom, ?_, ?_, ?_, ?_⟩
  · rw [hcall.task.pProcReady, hm₁]
    exact h.ready
  · exact not_inUser_of_cs (hcall.cs.trans hsave.cs)
  · exact hcall.ss.trans hsave.ss
  · change (Function.update s.procs s.ready s.cpu s.ready).InUser
    rwa [Function.update_self]
  · intro p _
    by_cases hp : p = s.ready
    · subst hp
      obtain ⟨kernelEsp, hw⟩ := hsave.frame
      change HoldsRegs _ _ (Function.update s.procs s.ready s.cpu s.ready)
      rw [Function.update_self, ← h.cpu]
      refine HoldsRegs.congr_saved ⟨kernelEsp, ret, ?_⟩ fun x hx =>
        hcall.mem_of_saved hargs hroom hx
      rwa [hframe] at hw
    · change HoldsRegs _ _ (Function.update s.procs s.ready s.cpu p)
      rw [Function.update_of_ne hp]
      exact (h.held p (.inr hp)).congr_other hp hsaved
  · intro p
    rw [sels_congr hsaved, h.sels p]
  · have hstack : c.top = l.stackTop - 4 := hctop.trans hsave.esp
    rw [hc, hm₁]
    change Stacked l m'.mem (c :: m.calls) _
    rw [hcalls]
    refine .proc ?_ ?_ ?_ ?_
    · rw [hcesi, hsave.esi, hframe]
    · rw [hctop, hused]
    · rw [hcesp, hctop, hcall.used_esp hargs hroom]
    · rw [← hsave.label, hstack, ← hsave.esp]
      exact load32_congr_used (Nat.le_of_eq hused.symm) fun x _ hx =>
        hcall.mem_of_used hargs hroom hx
  · rw [hcall.task.kReenter, hm₁, List.length_singleton]
    exact (h.reenter_succ.2 hn).trans rfl

theorem Contexts.enter_of_ne_nil {s : Contexts} {entry : AsmEntry} {cpu : Cpu} (h : s.nest ≠ []) :
    s.enter entry cpu = { s with cpu, nest := (entry, .kernel s.cpu) :: s.nest } := by
  obtain ⟨e, nest, hnest⟩ := List.exists_cons_of_ne_nil h
  unfold Contexts.enter
  rw [hnest]

section Kernel

variable {m₁ : Machine} {entry : AsmEntry} {args : List (BitVec 32)}

/-- The frame and the label of what a handler interrupts in the kernel are 68 bytes of the stack. -/
theorem used_saved (hroom : l.used m.cpu.esp + 100 ≤ stackSpace)
    (hsave : SaveDone m m₁ 16 ret (m.cpu.esp - 64) l.restartReenter (m.cpu.esp - 68)) :
    l.used m₁.cpu.esp = l.used m.cpu.esp + 68 := by
  unfold stackSpace at hroom
  rw [hsave.esp, show m.cpu.esp - 68 = m.cpu.esp - BitVec.ofNat 32 68 from rfl,
    AsmLayout.used_sub (by omega)]

theorem mem_of_not_saved
    (hsave : SaveDone m m₁ 16 ret (m.cpu.esp - 64) l.restartReenter (m.cpu.esp - 68)) {x : Addr}
    (hx : ¬ Within x m₁.cpu.esp 68) : m₁.mem x = m.mem x := by
  rw [hsave.esp] at hx
  refine hsave.mem x (fun h' => hx ?_) fun h' => hx ?_
  · unfold Within at h' ⊢
    bv_omega
  · unfold Within at h' ⊢
    omega

/-- The call comes on top of those there are. -/
theorem stacked_enter_kernel (h : Mirrors l sel m s) (hn : s.nest ≠ [])
    (hargs : args.length = entry.args) (hroom : l.used m.cpu.esp + 100 ≤ stackSpace)
    (hsave : SaveDone m m₁ 16 ret (m.cpu.esp - 64) l.restartReenter (m.cpu.esp - 68))
    (hcall : Called m₁ m' entry args) :
    Stacked l m'.mem m'.calls ((entry, .kernel s.cpu) :: s.nest) := by
  obtain ⟨hkernel, hss, -⟩ := h.kernel hn
  obtain ⟨e, nest, hnest⟩ := List.exists_cons_of_ne_nil hn
  obtain ⟨c', cs, hcalls⟩ : ∃ c' cs, m.calls = c' :: cs :=
    List.exists_cons_of_ne_nil fun h0 => hn (by
      have := h.stacked
      rw [h0] at this
      exact this.nest_nil)
  have hbelow := (h.esp c' (by rw [hcalls]; rfl)).1
  have hused := used_saved hroom hsave
  have hroom₁ : l.used m₁.cpu.esp + 20 ≤ stackSpace := by omega
  have hold : ∀ x, l.used x ≤ l.used m.cpu.esp → m'.mem x = m.mem x := by
    intro x hx
    rw [hcall.mem_of_used hargs hroom₁ (by omega)]
    refine mem_of_not_saved hsave fun hw => ?_
    rw [AsmLayout.within_iff_used (l := l) (by omega)] at hw
    omega
  obtain ⟨c, hc, rfl, hcesp, hcesi, hctop⟩ := hcall.exists_call hargs
  have htop : c.top + 4 = m.cpu.esp - 64 := by
    rw [hctop, hsave.esp]
    bv_omega
  have hrest := h.stacked
  rw [hcalls, hnest] at hrest
  rw [hc, hsave.rest, hnest]
  change Stacked l m'.mem (c :: m.calls) _
  rw [hcalls]
  refine .kernel ?_ ?_ ?_ ?_ ?_ ?_ (h.cpu ▸ hkernel) hss (h.cpu ▸ hbelow)
    (hrest.congr fun c₁ hc₁ x _ hx => hold x ?_)
  · rw [hcesi, hsave.esi, htop]
  · rw [hctop, hused, h.cpu]
  · rw [hcesp, hctop, hcall.used_esp hargs hroom₁]
  · rw [hcesp]
    exact hcall.used_esp_le hargs hroom₁
  · rw [← hsave.label, ← hsave.esp, hctop]
    exact load32_congr_used (l := l) (by omega) fun x _ hx =>
      hcall.mem_of_used hargs hroom₁ hx
  · obtain ⟨kernelEsp, hw⟩ := hsave.frame
    have h64 : l.used (m.cpu.esp - 64) = l.used m.cpu.esp + 64 := by
      unfold stackSpace at hroom
      exact AsmLayout.used_sub (n := 64) (by omega)
    rw [htop, ← h.cpu]
    refine ⟨kernelEsp, ret, hw.congr (by rw [List.length_take, length_stackframe]; decide)
      fun x hx => hcall.mem_of_used hargs hroom₁ ?_⟩
    rw [List.length_take, length_stackframe, AsmLayout.within_iff_used (l := l) (by omega)] at hx
    omega
  · obtain rfl : c' = c₁ := Option.some.inj hc₁
    have := hrest.top_lt
    rw [h.cpu]
    omega

theorem mirrors_enter_kernel (h : Mirrors l sel m s) (hn : s.nest ≠ [])
    (hargs : args.length = entry.args) (hroom : l.used m.cpu.esp + 100 ≤ stackSpace)
    (hsave : SaveDone m m₁ 16 ret (m.cpu.esp - 64) l.restartReenter (m.cpu.esp - 68))
    (hcall : Called m₁ m' entry args) : Mirrors l sel m' (s.enter entry m'.cpu) := by
  obtain ⟨-, -, hready⟩ := h.kernel hn
  have hused := used_saved hroom hsave
  have hroom₁ : l.used m₁.cpu.esp + 20 ≤ stackSpace := by omega
  have hsaved : ∀ x, l.Saved x → m'.mem x = m.mem x := by
    intro x hx
    rw [hcall.mem_of_saved hargs hroom₁ hx]
    exact mem_of_not_saved hsave (hx.not_within (by omega) (by omega))
  have hm₁ := hsave.rest
  rw [Contexts.enter_of_ne_nil hn]
  refine ⟨rfl, ?_, fun hne => absurd hne (List.cons_ne_nil _ _), fun _ => ⟨?_, ?_, hready⟩,
    hcall.esp_bounds hargs hroom₁, ?_, ?_, stacked_enter_kernel h hn hargs hroom hsave hcall, ?_⟩
  · rw [hcall.task.pProcReady, hm₁]
    exact h.ready
  · exact not_inUser_of_cs (hcall.cs.trans hsave.cs)
  · exact hcall.ss.trans hsave.ss
  · exact fun p _ => (h.held p (.inl hn)).congr_saved hsaved
  · intro p
    rw [sels_congr (q := p) fun x hx _ => hsaved x hx, h.sels p]
  · rw [hcall.task.kReenter, hm₁]
    change m.kReenter + 1 = BitVec.ofNat 32 (s.nest.length + 1) - 1
    rw [h.reenter, BitVec.sub_add_cancel, BitVec.ofNat_add s.nest.length]
    exact (BitVec.add_sub_cancel _ _).symm

end Kernel

/-! ## A handler returns -/

/-- The process that is ready goes on. -/
theorem mirrors_restartProc (hready : m.pProcReady = l.regs s.ready)
    (hcpu : s.cpu = s.procs s.ready) (hnest : s.nest = []) (hu : (s.procs s.ready).InUser)
    (hheld : ∀ p, HoldsRegs m.mem (l.regs p) (s.procs p))
    (hsels : ∀ p, load16 m.mem (l.regs p + BitVec.ofNat 32 pLdtSel) = sel p)
    (hcalls : m.calls = []) (hk : m.kReenter = 0) : Mirrors l sel (restartProc m) s := by
  obtain ⟨kernelEsp, retaddr, hw⟩ := hheld s.ready
  have hrestart : restartProc m =
      { m with
        kReenter := 0 - 1
        cpu := s.procs s.ready
        ldtr := sel s.ready
        sp0 := l.regs s.ready + BitVec.ofNat 32 pStacktop } := by
    unfold restartProc
    dsimp only
    rw [hready, hsels, ← hk]
    exact restartReenter_user hw hu
  rw [hrestart]
  refine ⟨hcpu.symm, hready, fun _ => ⟨hcpu ▸ hu, rfl, rfl⟩, fun hne => absurd hnest hne, ?_,
    fun p _ => hheld p, hsels, ?_, ?_⟩
  · rw [hcalls]
    exact fun c hc => absurd hc (by simp)
  · rw [hcalls, hnest]
    exact .nil
  · rw [hnest]
    rfl

theorem AsmEntry.stored_of_not_within {entry : AsmEntry} {cpu : Cpu} {x : Addr}
    (h : ¬ Within x (cpu.esi + BitVec.ofNat 32 eaxreg) 4) : entry.stored cpu mem x = mem x := by
  cases entry with
  | hwint irq => rfl
  | sysCall => exact poke_of_not_within h

theorem AsmEntry.result_inUser {entry : AsmEntry} {v : BitVec 32} {c : Cpu} :
    (entry.result v c).InUser ↔ c.InUser := by
  cases entry <;> rfl

theorem AsmEntry.result_esp {entry : AsmEntry} {v : BitVec 32} {c : Cpu} :
    (entry.result v c).esp = c.esp := by
  cases entry <;> rfl

theorem AsmEntry.result_ss {entry : AsmEntry} {v : BitVec 32} {c : Cpu} :
    (entry.result v c).ss = c.ss := by
  cases entry <;> rfl

/-- Where the C code of a handler returns, the machine is at its last `ret`. -/
theorem finish_eq {c : Call} (cs : List Call) (hret : c.Returns m.cpu) :
    ∃ m₁, finish l { m with calls := cs, cpu := { m.cpu with esp := m.cpu.esp + 4 } } c.entry =
      retRestart l m₁ ∧ m₁.mem = c.entry.stored m.cpu m.mem ∧ m₁.cpu.esp = c.top ∧
        m₁.cpu.ss = m.cpu.ss ∧ m₁.calls = cs ∧ SameTask m m₁ := by
  obtain ⟨m₁, hfinish, hdropped⟩ := finish_dropped (l := l)
    { m with calls := cs, cpu := { m.cpu with esp := m.cpu.esp + 4 } } c.entry
  refine ⟨m₁, hfinish, ?_, ?_, hdropped.ss, hdropped.calls, hdropped.task.1, hdropped.task.2,
    hdropped.task.3, hdropped.task.4, hdropped.task.5⟩
  · rw [hdropped.mem]
    cases c.entry <;> rfl
  · rw [hdropped.esp, hret.esp, Call.top, BitVec.ofNat_add, ← BitVec.add_assoc]
    rfl

/-- The handler that has interrupted a process. -/
theorem mirrors_leave_proc {c : Call} {p : Slot} (h : Mirrors l sel m s)
    (hret : c.Returns m.cpu) (hnest : s.nest = [(c.entry, .proc p)]) (hcalls : m.calls = [c]) :
    ∃ m', finish l { m with calls := [], cpu := { m.cpu with esp := m.cpu.esp + 4 } } c.entry =
      .ok m' ∧ Mirrors l sel m' s.leave := by
  have hne : s.nest ≠ [] := by
    rw [hnest]
    exact List.cons_ne_nil _ _
  have hstacked := h.stacked
  rw [hcalls, hnest] at hstacked
  obtain _ | ⟨hesi, htop, hesp, hlabel⟩ := hstacked
  obtain ⟨m₁, hfinish, hmem, hm₁esp, -, hm₁calls, htask⟩ := finish_eq (l := l) [] hret
  have hframe : m.cpu.esi = l.regs p := hret.esi.trans hesi
  have hout : ∀ x, ¬ Within x (l.regs p) pLdtSel → m₁.mem x = m.mem x := by
    intro x hx
    rw [hmem]
    refine AsmEntry.stored_of_not_within fun hw => hx ?_
    rw [hframe, within_add (by decide)] at hw
    exact Nat.lt_of_lt_of_le hw.2 (by decide)
  have hlabel₁ : load32 m₁.mem m₁.cpu.esp = l.restart := by
    rw [← hlabel, hm₁esp]
    refine load32_congr_used (Nat.le_of_eq htop.symm) fun x h0 hx => hout x fun hw => ?_
    refine AsmLayout.not_saved_of_used h0 ?_ ⟨p, Nat.lt_of_lt_of_le hw (by decide)⟩
    rw [htop] at hx
    exact Nat.le_trans hx (by decide)
  have hleave : s.leave =
      let procs := Function.update s.procs p (c.entry.result s.cpu.eax (s.procs p))
      ⟨procs s.ready, procs, s.ready, []⟩ := by
    unfold Contexts.leave
    rw [hnest]
  refine ⟨_, hfinish.trans (retRestart_restart hlabel₁), ?_⟩
  rw [hleave]
  refine mirrors_restartProc ?_ rfl rfl ?_ ?_ ?_ hm₁calls ?_
  · exact htask.pProcReady.trans h.ready
  · change (Function.update s.procs p _ s.ready).InUser
    by_cases hp : s.ready = p
    · rw [hp, Function.update_self, AsmEntry.result_inUser, ← hp]
      exact (h.kernel hne).2.2
    · rw [Function.update_of_ne hp]
      exact (h.kernel hne).2.2
  · intro q
    change HoldsRegs m₁.mem _ (Function.update s.procs p _ q)
    by_cases hq : q = p
    · subst hq
      rw [Function.update_self, hmem, ← h.cpu]
      exact (h.held q (.inl hne)).stored hframe c.entry
    · rw [Function.update_of_ne hq]
      exact (h.held q (.inl hne)).congr_other hq fun x _ hx => hout x hx
  · intro q
    exact (sels_congr fun x _ hx => hout x hx).trans (h.sels q)
  · change m₁.kReenter = 0
    rw [htask.kReenter, h.reenter, hnest]
    exact BitVec.sub_self _

/-- A handler that has interrupted the kernel. -/
theorem mirrors_leave_kernel {c c' : Call} {cs : List Call} {cpu : Cpu} {e : AsmEntry × Origin}
    {nest : List (AsmEntry × Origin)} (h : Mirrors l sel m s) (hret : c.Returns m.cpu)
    (hnest : s.nest = (c.entry, .kernel cpu) :: e :: nest) (hcalls : m.calls = c :: c' :: cs) :
    ∃ m', finish l { m with calls := c' :: cs, cpu := { m.cpu with esp := m.cpu.esp + 4 } }
      c.entry = .ok m' ∧ Mirrors l sel m' s.leave := by
  have hne : s.nest ≠ [] := by
    rw [hnest]
    exact List.cons_ne_nil _ _
  have hstacked := h.stacked
  rw [hcalls, hnest] at hstacked
  obtain _ | _ | ⟨hesi, htop, hesp, hle, hlabel, hframe, hu, hss, hbelow, hrest⟩ := hstacked
  obtain ⟨m₁, hfinish, hmem, hm₁esp, hm₁ss, hm₁calls, htask⟩ :=
    finish_eq (l := l) (c' :: cs) hret
  have hesi' : m.cpu.esi = c.top + 4 := hret.esi.trans hesi
  -- the value is stored in the frame, which is in the stack between `c.top` and `cpu.esp`
  have hout : ∀ x, ¬ Within x (c.top + 4) 64 → m₁.mem x = m.mem x := by
    intro x hx
    rw [hmem]
    refine AsmEntry.stored_of_not_within fun hw => hx ?_
    rw [hesi', within_add (by decide)] at hw
    exact Nat.lt_of_lt_of_le hw.2 (by decide)
  have hlabel₁ : load32 m₁.mem m₁.cpu.esp = l.restartReenter := by
    rw [← hlabel, hm₁esp]
    refine load32_congr fun i hi => hout _ fun hw => ?_
    unfold Within at hw
    bv_omega
  have hframe₁ : ∃ kernelEsp retaddr, WordsAt m₁.mem (c.top + 4)
      (((c.entry.result m.cpu.eax cpu).stackframe kernelEsp retaddr).take 16) := by
    obtain ⟨kernelEsp, retaddr, hw⟩ := hframe
    exact ⟨kernelEsp, retaddr, hmem ▸ wordsAt_stored (by decide) hw hesi' c.entry⟩
  obtain ⟨kernelEsp, retaddr, hw⟩ := hframe₁
  have hback : c.top + 4 + 64 = cpu.esp := by
    rw [AsmLayout.eq_of_used htop]
    bv_omega
  have hroom : 68 ≤ l.used c.top := by omega
  have hin : ∀ x, Within x (c.top + 4) 64 → l.used cpu.esp < l.used x ∧ l.used x ≤
      l.used c.top := by
    intro x hx
    have h4 : l.used (c.top + 4) = l.used c.top - 4 := AsmLayout.used_add (n := 4) (by omega)
    rw [AsmLayout.within_iff_used (l := l) (by omega)] at hx
    omega
  have hsaved : ∀ x, l.Saved x → m₁.mem x = m.mem x := by
    refine fun x hx => hout x fun hw => AsmLayout.not_saved_of_used ?_ ?_ hx
    · exact Nat.lt_of_le_of_lt (Nat.zero_le _) (hin x hw).1
    · have := (hin x hw).2
      omega
  have hleave : s.leave = ⟨c.entry.result s.cpu.eax cpu, s.procs, s.ready, e :: nest⟩ := by
    unfold Contexts.leave
    rw [hnest]
  refine ⟨_, hfinish.trans (retRestart_reenter hlabel₁), ?_⟩
  rw [restartReenter_kernel (c := c.entry.result m.cpu.eax cpu) (by rwa [hm₁esp])
    (fun hu' => hu (AsmEntry.result_inUser.1 hu')) ?_ ?_, hleave]
  · refine ⟨congrArg (c.entry.result · cpu) (congrArg Cpu.eax h.cpu), ?_,
      fun hnil => absurd hnil (List.cons_ne_nil _ _), fun _ => ⟨?_, ?_, (h.kernel hne).2.2⟩, ?_, ?_,
      ?_, ?_, ?_⟩
    · exact htask.pProcReady.trans h.ready
    · exact fun hu' => hu (AsmEntry.result_inUser.1 hu')
    · exact AsmEntry.result_ss.trans hss
    · change ∀ c₁ ∈ m₁.calls.head?, _
      rw [hm₁calls]
      rintro _ ⟨⟩
      rw [AsmEntry.result_esp]
      exact ⟨hbelow, by omega⟩
    · exact fun p _ => (h.held p (.inl hne)).congr_saved hsaved
    · intro p
      exact (sels_congr (q := p) fun x hx _ => hsaved x hx).trans (h.sels p)
    · change Stacked l m₁.mem m₁.calls _
      rw [hm₁calls]
      refine hrest.congr fun c₁ hc₁ x _ hx => hout x fun hw => ?_
      obtain rfl : c' = c₁ := Option.some.inj hc₁
      have := hrest.top_lt
      have := (hin x hw).1
      omega
    · change m₁.kReenter - 1 = BitVec.ofNat 32 (nest.length + 1) - 1
      have hlen : BitVec.ofNat 32 (nest.length + 1 + 1) - 1 =
          BitVec.ofNat 32 (nest.length + 1) := by
        rw [BitVec.ofNat_add (nest.length + 1)]
        exact BitVec.add_sub_cancel _ _
      rw [htask.kReenter, h.reenter, hnest]
      exact congrArg (· - 1) hlen
  · rw [AsmEntry.result_esp, ← hback, hm₁esp]
  · rw [AsmEntry.result_ss, hss]
    exact hm₁ss.trans ((congrArg Cpu.ss h.cpu).trans (h.kernel hne).2.1)

/-! ## Runs -/

namespace Mirrors

/-- A process is interrupted on the stack of the TSS, which is its own frame. -/
theorem callSave_user (h : Mirrors l sel m s) (hn : s.nest = []) (ret : Addr) :
    ∃ m₁, callSave l ret m.gate = .ok m₁ ∧
      SaveDone m m₁ 18 ret (m.sp0 - 72) l.restart (l.stackTop - 4) := by
  refine MyOS.callSave_user (h.inUser_iff.2 hn) (h.reenter_succ.2 hn) fun x hx hw => ?_
  have hframe : m.sp0 - 72 = l.regs s.ready := by
    rw [(h.user hn).2.1]
    exact BitVec.add_sub_cancel _ _
  have hused : l.used (l.stackTop - 4) = 4 := by
    unfold AsmLayout.used
    bv_omega
  rw [hframe] at hx
  exact AsmLayout.Saved.not_within ⟨s.ready, Nat.lt_of_lt_of_le hx (by decide)⟩
    (Nat.le_of_eq hused.symm) (by rw [hused]; decide) hw

theorem callSave_kernel (h : Mirrors l sel m s) (hn : s.nest ≠ []) (ret : Addr) :
    ∃ m₁, callSave l ret m.gate = .ok m₁ ∧
      SaveDone m m₁ 16 ret (m.cpu.esp - 64) l.restartReenter (m.cpu.esp - 68) :=
  MyOS.callSave_kernel (fun hu => hn (h.inUser_iff.1 hu)) (fun hk => hn (h.reenter_succ.1 hk))
    ((congrArg Cpu.ss h.cpu).trans (h.kernel hn).2.1)

/-- Whoever is interrupted, what comes behind `save` is reached, and from there on the handler is
called in the contexts that have been entered. -/
theorem callSave (h : Mirrors l sel m s) (hroom : m.Room l) (ret : Addr) :
    ∃ m₁, callSave l ret m.gate = .ok m₁ ∧ m₁.irqTable = m.irqTable ∧
      m₁.pProcReady = m.pProcReady ∧
      (m₁.cpu.eax = m.cpu.eax ∧ m₁.cpu.ebx = m.cpu.ebx ∧ m₁.cpu.ecx = m.cpu.ecx ∧
        m₁.cpu.edx = m.cpu.edx) ∧
      ∀ {m' : Machine} {entry : AsmEntry} {args : List (BitVec 32)}, args.length = entry.args →
        Called m₁ m' entry args → Mirrors l sel m' (s.enter entry m'.cpu) := by
  by_cases hn : s.nest = []
  · obtain ⟨m₁, hok, hsave⟩ := h.callSave_user hn ret
    refine ⟨m₁, hok, ?_, ?_, hsave.args, fun hargs hcall =>
      mirrors_enter_user h hn hargs hsave hcall⟩
    · rw [hsave.rest]
    · rw [hsave.rest]
  · obtain ⟨m₁, hok, hsave⟩ := h.callSave_kernel hn ret
    have hroom' := hroom.resolve_left fun hu => hn (h.inUser_iff.1 hu)
    refine ⟨m₁, hok, ?_, ?_, hsave.args, fun hargs hcall =>
      mirrors_enter_kernel h hn hargs hroom' hsave hcall⟩
    · rw [hsave.rest]
    · rw [hsave.rest]

/-- An interrupt calls the handler of its line. -/
theorem hwint (h : Mirrors l sel m s) (hroom : m.Room l) (irq : Fin 16) :
    ∃ m', hwint l irq m = .ok m' ∧ m'.cpu.eip = m.irqTable irq ∧
      WordsAt m'.mem (m'.cpu.esp + 4) [BitVec.ofNat 32 irq] ∧
        Mirrors l sel m' (s.enter (.hwint irq) m'.cpu) := by
  obtain ⟨m₁, hok, hirq, -, -, henter⟩ := h.callSave hroom (l.hwintSaved irq)
  obtain ⟨m', hhwint, heip, -, hcall⟩ := hwint_called hok
  exact ⟨m', hhwint, heip.trans (congrFun hirq irq), hcall.words, henter rfl hcall⟩

/-- A system call calls what is in the table, with three registers of the caller and
`p_proc_ready`. -/
theorem sysCall (h : Mirrors l sel m s) (hroom : m.Room l)
    (hnr : m.cpu.eax.toNat < nrSysCall) :
    ∃ m', sysCall l m = .ok m' ∧ m'.cpu.eip = l.sysCallTable ⟨m.cpu.eax.toNat, hnr⟩ ∧
      WordsAt m'.mem (m'.cpu.esp + 4) [m.cpu.ebx, m.cpu.ecx, m.cpu.edx, m.pProcReady] ∧
        Mirrors l sel m' (s.enter .sysCall m'.cpu) := by
  obtain ⟨m₁, hok, -, hready, hregs, henter⟩ := h.callSave hroom l.sysCallSaved
  have hnr₁ : m₁.cpu.eax.toNat < nrSysCall := hregs.1 ▸ hnr
  obtain ⟨m', hsys, heip, -, hcall⟩ := sysCall_called hok hnr₁
  refine ⟨m', hsys, ?_, ?_, henter rfl hcall⟩
  · rw [heip]
    simp only [hregs.1]
  · rw [← hregs.2.1, ← hregs.2.2.1, ← hregs.2.2.2, ← hready]
    exact hcall.words

theorem sysCall_wild (h : Mirrors l sel m s) (hroom : m.Room l)
    (hnr : ¬ m.cpu.eax.toNat < nrSysCall) : MyOS.sysCall l m = .error .wild := by
  obtain ⟨m₁, hok, -, -, hregs, -⟩ := h.callSave hroom l.sysCallSaved
  exact MyOS.sysCall_wild hok (hregs.1.symm ▸ hnr)

/-- Where C code keeps to the convention, its handler ends. -/
theorem finish {c : Call} {cs : List Call} (h : Mirrors l sel m s) (hcalls : m.calls = c :: cs)
    (hret : c.Returns m.cpu) : s.nest ≠ [] ∧
      ∃ m', finish l { m with calls := cs, cpu := { m.cpu with esp := m.cpu.esp + 4 } } c.entry =
        .ok m' ∧ Mirrors l sel m' s.leave := by
  have hstacked := h.stacked
  generalize hnest : s.nest = nest at hstacked
  rw [hcalls] at hstacked
  obtain _ | _ | _ := hstacked
  · exact ⟨List.cons_ne_nil _ _, mirrors_leave_proc h hret hnest hcalls⟩
  · exact ⟨List.cons_ne_nil _ _, mirrors_leave_kernel h hret hnest hcalls⟩

theorem calls_nil (h : Mirrors l sel m s) (hn : s.nest = []) : m.calls = [] := by
  have hstacked := h.stacked
  rw [hn] at hstacked
  exact hstacked.calls_nil

theorem nest_ne_nil {c : Call} {cs : List Call} (h : Mirrors l sel m s)
    (hcalls : m.calls = c :: cs) : s.nest ≠ [] := fun hn =>
  List.cons_ne_nil c cs (hcalls.symm.trans (h.calls_nil hn))

theorem exists_call (h : Mirrors l sel m s) (hne : s.nest ≠ []) : ∃ c cs, m.calls = c :: cs := by
  refine List.exists_cons_of_ne_nil fun h0 => hne ?_
  have hstacked := h.stacked
  rw [h0] at hstacked
  exact hstacked.nest_nil

theorem step_user {cpu : Cpu} {irqTable : Fin 16 → Addr} {intMCtlmask intSCtlmask : Byte}
    (h : Mirrors l sel m s) (hn : s.nest = []) (hu : cpu.InUser)
    (hmem : ∀ x, l.Saved x → mem' x = m.mem x) :
    Mirrors l sel { m with cpu, mem := mem', irqTable, intMCtlmask, intSCtlmask }
      { s with cpu } := by
  have hcalls := h.calls_nil hn
  obtain ⟨-, hsp0, hldtr⟩ := h.user hn
  refine ⟨rfl, h.ready, fun _ => ⟨hu, hsp0, hldtr⟩, fun hne => absurd hn hne, ?_,
    fun p hp => (h.held p hp).congr_saved hmem, ?_, ?_, h.reenter⟩
  · change ∀ c ∈ m.calls.head?, _
    rw [hcalls]
    exact fun c hc => absurd hc (by simp)
  · intro p
    exact (sels_congr (q := p) fun x hx _ => hmem x hx).trans (h.sels p)
  · change Stacked l mem' m.calls s.nest
    rw [hcalls, hn]
    exact .nil

theorem step_setRegs {p : Slot} {regs : Cpu} (h : Mirrors l sel m s) (hn : s.nest = [])
    (hp : p ≠ s.ready) (hregs : HoldsRegs mem' (l.regs p) regs)
    (hmem : ∀ x, l.Saved x → ¬ Within x (l.regs p) pLdtSel → mem' x = m.mem x) :
    Mirrors l sel { m with mem := mem' }
      { s with procs := Function.update s.procs p regs } := by
  have hcalls := h.calls_nil hn
  refine ⟨h.cpu, h.ready, h.user, fun hne => absurd hn hne, h.esp, ?_, ?_, ?_, h.reenter⟩
  · intro q hq
    change HoldsRegs mem' _ (Function.update s.procs p regs q)
    by_cases hqp : q = p
    · subst hqp
      rwa [Function.update_self]
    · rw [Function.update_of_ne hqp]
      exact (h.held q hq).congr_other hqp hmem
  · intro q
    exact (sels_congr hmem).trans (h.sels q)
  · change Stacked l mem' m.calls s.nest
    rw [hcalls, hn]
    exact .nil

/-- The code between `sti` and `cli` goes on: the frames are behind its arguments. -/
theorem step_code {c : Call} {cs : List Call} {cpu : Cpu} {ready : Slot} (h : Mirrors l sel m s)
    (hcalls : m.calls = c :: cs) (hcs : cpu.cs = m.cpu.cs) (hss : cpu.ss = m.cpu.ss)
    (hesp : l.used c.top ≤ l.used cpu.esp ∧ l.used cpu.esp ≤ stackSpace)
    (hmem : ∀ x, Within x c.top (l.used c.top) ∨ l.Saved x → mem' x = m.mem x)
    (hready : ∃ regs : Cpu, regs.InUser ∧ HoldsRegs mem' (l.regs ready) regs) :
    Mirrors l sel { m with cpu, mem := mem', pProcReady := l.regs ready }
      { s with cpu, ready } := by
  have hne := h.nest_ne_nil hcalls
  obtain ⟨hkernel, hkss, -⟩ := h.kernel hne
  have hheld : ∀ p, HoldsRegs mem' (l.regs p) (s.procs p) := fun p =>
    (h.held p (.inl hne)).congr_saved fun x hx => hmem x (.inr hx)
  refine ⟨rfl, rfl, fun hn => absurd hn hne, fun _ => ⟨?_, ?_, ?_⟩, ?_, fun p _ => hheld p, ?_, ?_,
    h.reenter⟩
  · unfold Cpu.InUser at hkernel ⊢
    rwa [hcs, h.cpu]
  · rw [hss, h.cpu, hkss]
  · obtain ⟨regs, hu, hregs⟩ := hready
    change (s.procs ready).InUser
    unfold Cpu.InUser at hu ⊢
    rwa [(hheld ready).cs_eq hregs]
  · change ∀ c₁ ∈ m.calls.head?, _
    rw [hcalls]
    rintro _ ⟨⟩
    exact hesp
  · intro p
    exact (sels_congr (q := p) fun x hx _ => hmem x (.inr hx)).trans (h.sels p)
  · refine h.stacked.congr fun c₁ hc₁ x h0 hx => hmem x (.inl ?_)
    rw [hcalls] at hc₁
    obtain rfl : c = c₁ := Option.some.inj hc₁
    exact AsmLayout.within_used_iff.2 ⟨h0, hx⟩

theorem step {act : KAct} (h : Mirrors l sel m s) (hstep : KStep l m act m') :
    ∃ s', ContextStep s act s' ∧ Mirrors l sel m' s' := by
  cases hstep with
  | user hu hu' hmem =>
    have hn := h.inUser_iff.1 hu
    exact ⟨_, .user hn, h.step_user hn hu' hmem⟩
  | @setRegs p _ _ hu hp hregs hmem =>
    have hn := h.inUser_iff.1 hu
    have hne : p ≠ s.ready := fun hp' => hp (hp' ▸ h.ready)
    exact ⟨_, .setRegs hn hne, h.step_setRegs hn hne hregs hmem⟩
  | @interrupt _ irq _ hroom hok =>
    obtain ⟨m₁, hok₁, -, -, hrep⟩ := h.hwint hroom irq
    obtain rfl : m' = m₁ := Except.ok.inj (hok.symm.trans hok₁)
    exact ⟨_, .interrupt, hrep⟩
  | trap hroom hok =>
    have hnr : m.cpu.eax.toNat < nrSysCall := by
      by_contra hnr
      cases hok.symm.trans (h.sysCall_wild hroom hnr)
    obtain ⟨m₁, hok₁, -, -, hrep⟩ := h.sysCall hroom hnr
    obtain rfl : m' = m₁ := Except.ok.inj (hok.symm.trans hok₁)
    exact ⟨_, .trap, hrep⟩
  | code hcalls hcs hss hle hle' hmem hready =>
    exact ⟨_, .code (h.nest_ne_nil hcalls), h.step_code hcalls hcs hss ⟨hle, hle'⟩ hmem hready⟩
  | ret hcalls hret hok =>
    obtain ⟨hne, m₁, hok₁, hrep⟩ := h.finish hcalls hret
    obtain rfl : m' = m₁ := Except.ok.inj (hok.symm.trans hok₁)
    exact ⟨_, .ret hne, hrep⟩

end Mirrors

variable {regs : Slot → Cpu} {t : List KAct}

theorem mirrors_start (h : KStart l sel regs m) : Mirrors l sel m ⟨regs 0, regs, 0, []⟩ := by
  cases h with
  | restart hcalls hk hready hregs hu =>
    exact mirrors_restartProc hready rfl rfl hu (fun p => (hregs p).1) (fun p => (hregs p).2)
      hcalls hk

/-! A machine whose processes have interrupts let in, and whose memory has nothing but that. -/

def sampleLayout : AsmLayout where
  restart := 0x1000
  restartReenter := 0x1010
  hwintSaved irq := 0x2000 + BitVec.ofNat 32 irq
  sysCallSaved := 0x1020
  hwintRet irq := 0x3000 + BitVec.ofNat 32 irq
  sysCallRet := 0x1030
  sysCallTable _ := 0x4000
  stackTop := 0x100000
  procTable := 0
  sizeofProc := 128
  restart_ne := by decide
  sizeofProc_le := by decide
  procTable_le := by decide
  apart := by
    intro x hx hx'
    unfold Within stackSpace nrTasks nrProcs at *
    bv_omega

def sampleCpu : Cpu := { (default : Cpu) with cs := 1, eflags := interruptFlag }

def sampleMachine : Machine where
  cpu := default
  mem x := if x.toNat % 128 = 56 then 1 else if x.toNat % 128 = 61 then 2 else 0
  kReenter := 0
  pProcReady := 0
  sp0 := 0
  ldtr := 0
  intMCtlmask := 0
  intSCtlmask := 0
  irqTable _ := 0x5000
  calls := []

theorem sample_start : KStart sampleLayout (fun _ => 0) (fun _ => sampleCpu)
    (restartProc sampleMachine) := by
  refine .restart rfl rfl rfl (fun p => ⟨⟨0, 0, ?_⟩, ?_⟩) (by decide)
  · revert p
    decide +kernel
  · revert p
    decide +kernel

/-- C code goes on until it can return. -/
theorem Mirrors.code_returns {c : Call} {cs : List Call} (h : Mirrors l sel m s)
    (hcalls : m.calls = c :: cs) : ∃ cpu m₁ m₂, KStep l m (.code cpu s.ready) m₁ ∧
      KStep l m₁ .ret m₂ := by
  have hne := h.nest_ne_nil hcalls
  have hstacked := h.stacked
  rw [hcalls] at hstacked
  have hcode : KStep l m (.code { m.cpu with
      esp := c.esp, ebx := c.ebx, esi := c.esi, edi := c.edi, ebp := c.ebp } s.ready)
      { m with
        cpu := { m.cpu with
          esp := c.esp, ebx := c.ebx, esi := c.esi, edi := c.edi, ebp := c.ebp }
        pProcReady := l.regs s.ready } :=
    .code hcalls rfl rfl (Nat.le_of_lt hstacked.top_lt) hstacked.esp_le (fun _ _ => rfl)
      ⟨_, (h.kernel hne).2.2, h.held s.ready (.inl hne)⟩
  obtain ⟨s', -, hrep'⟩ := h.step hcode
  have hret : c.Returns { m.cpu with
      esp := c.esp, ebx := c.ebx, esi := c.esi, edi := c.edi, ebp := c.ebp } :=
    ⟨rfl, rfl, rfl, rfl, rfl⟩
  obtain ⟨-, m₂, hok, -⟩ := hrep'.finish hcalls hret
  exact ⟨_, _, m₂, hcode, .ret hcalls hret hok⟩

theorem sample_interrupt : ∃ m s, KStep sampleLayout (restartProc sampleMachine) (.interrupt 1) m ∧
    Mirrors sampleLayout (fun _ => 0) m s ∧ s.nest ≠ [] ∧ s.ready = 0 := by
  have hrep := mirrors_start sample_start
  have hcpu := hrep.cpu
  have hroom : (restartProc sampleMachine).Room sampleLayout := .inl (hrep.inUser_iff.2 rfl)
  obtain ⟨m, hok, -, -, hrep'⟩ := hrep.hwint hroom 1
  have hlets : (restartProc sampleMachine).Lets 1 := by
    refine ⟨?_, by decide, fun h => absurd h (by decide)⟩
    rw [hcpu]
    decide
  exact ⟨m, _, .interrupt hlets hroom hok, hrep', List.cons_ne_nil _ _, rfl⟩

theorem sample_run : ∃ m cpu, Run (KStart sampleLayout (fun _ => 0) (fun _ => sampleCpu))
    (KStep sampleLayout) [.ret, .code cpu 0, .interrupt 1] m := by
  obtain ⟨m₁, s, hint, hrep, hne, hready⟩ := sample_interrupt
  obtain ⟨c, cs, hcalls⟩ := hrep.exists_call hne
  obtain ⟨cpu, m₂, m₃, hcode, hret⟩ := hrep.code_returns hcalls
  rw [hready] at hcode
  exact ⟨m₃, cpu, .snoc (.snoc (.snoc (.start sample_start) hint) hcode) hret⟩

/-- Every run is one in which contexts are saved and restored as a whole: at each of its states the
registers are those of the same contexts, with each handler that has not ended. -/
theorem run_contexts (hr : Run (KStart l sel regs) (KStep l) t m) :
    ∃ s, Run (ContextStart regs) ContextStep t s ∧ Mirrors l sel m s := by
  refine hr.invariant (P := fun t m => ∃ s, Run (ContextStart regs) ContextStep t s ∧
    Mirrors l sel m s) ?_ ?_
  · exact fun m hm => ⟨_, .start .start, mirrors_start hm⟩
  · rintro t m act m' ⟨s, hs, hrep⟩ hstep
    obtain ⟨s', hs', hrep'⟩ := hrep.step hstep
    exact ⟨s', .snoc hs hs', hrep'⟩

theorem run_contexts_interrupt : ∃ m s cpu,
    Run (ContextStart fun _ => sampleCpu) ContextStep [.ret, .code cpu 0, .interrupt 1] s ∧
      Mirrors sampleLayout (fun _ => 0) m s := by
  obtain ⟨m, cpu, hr⟩ := sample_run
  obtain ⟨s, hs, hrep⟩ := run_contexts hr
  exact ⟨m, s, cpu, hs, hrep⟩

theorem Stacked.length_eq {calls : List Call} {nest : List (AsmEntry × Origin)}
    (h : Stacked l mem calls nest) : nest.length = calls.length := by
  induction h with
  | nil => rfl
  | proc _ _ _ _ => rfl
  | kernel _ _ _ _ _ _ _ _ _ _ ih => exact congrArg _ ih

/-- In every run: `k_reenter` counts the handlers that have not ended, but for the first; an
interrupt calls what is in `irq_table` for its line, a system call what is in `sys_call_table`, with
three registers of the caller and `p_proc_ready`, and a number that is not in the table goes
somewhere else; and behind C code that keeps to the calling convention a handler ends. -/
theorem run_handlers (hr : Run (KStart l sel regs) (KStep l) t m) :
    m.kReenter = BitVec.ofNat 32 m.calls.length - 1 ∧ (m.cpu.InUser ↔ m.calls = []) ∧
      (m.Room l → ∀ irq, ∃ m', hwint l irq m = .ok m' ∧ m'.cpu.eip = m.irqTable irq ∧
        WordsAt m'.mem (m'.cpu.esp + 4) [BitVec.ofNat 32 irq]) ∧
      (m.Room l → ∀ hnr : m.cpu.eax.toNat < nrSysCall, ∃ m', sysCall l m = .ok m' ∧
        m'.cpu.eip = l.sysCallTable ⟨m.cpu.eax.toNat, hnr⟩ ∧
          WordsAt m'.mem (m'.cpu.esp + 4) [m.cpu.ebx, m.cpu.ecx, m.cpu.edx, m.pProcReady]) ∧
      (m.Room l → ¬ m.cpu.eax.toNat < nrSysCall → sysCall l m = .error .wild) ∧
      ∀ c cs, m.calls = c :: cs → c.Returns m.cpu → ∃ m', KStep l m .ret m' := by
  obtain ⟨s, -, hrep⟩ := run_contexts hr
  have hnil : s.nest = [] ↔ m.calls = [] := by
    rw [← List.length_eq_zero_iff, hrep.stacked.length_eq, List.length_eq_zero_iff]
  refine ⟨?_, hrep.inUser_iff.trans hnil, fun hroom irq => ?_, fun hroom hnr => ?_,
    hrep.sysCall_wild, fun c cs hcalls hret => ?_⟩
  · rw [hrep.reenter, hrep.stacked.length_eq]
  · obtain ⟨m', hok, heip, hwords, -⟩ := hrep.hwint hroom irq
    exact ⟨m', hok, heip, hwords⟩
  · obtain ⟨m', hok, heip, hwords, -⟩ := hrep.sysCall hroom hnr
    exact ⟨m', hok, heip, hwords⟩
  · obtain ⟨-, m', hok, -⟩ := hrep.finish hcalls hret
    exact ⟨m', .ret hcalls hret hok⟩

/-- Within the handler of an interrupt. -/
theorem run_handlers_interrupt : ∃ m : Machine, m.calls ≠ [] ∧
    m.kReenter = BitVec.ofNat 32 m.calls.length - 1 ∧ (m.cpu.InUser ↔ m.calls = []) ∧
      (m.Room sampleLayout → ∀ irq, ∃ m', hwint sampleLayout irq m = .ok m' ∧
        m'.cpu.eip = m.irqTable irq ∧ WordsAt m'.mem (m'.cpu.esp + 4) [BitVec.ofNat 32 irq]) ∧
      (m.Room sampleLayout → ∀ hnr : m.cpu.eax.toNat < nrSysCall, ∃ m',
        sysCall sampleLayout m = .ok m' ∧
        m'.cpu.eip = sampleLayout.sysCallTable ⟨m.cpu.eax.toNat, hnr⟩ ∧
          WordsAt m'.mem (m'.cpu.esp + 4) [m.cpu.ebx, m.cpu.ecx, m.cpu.edx, m.pProcReady]) ∧
      (m.Room sampleLayout → ¬ m.cpu.eax.toNat < nrSysCall →
        sysCall sampleLayout m = .error .wild) ∧
      ∀ c cs, m.calls = c :: cs → c.Returns m.cpu → ∃ m', KStep sampleLayout m .ret m' := by
  obtain ⟨m, s, hint, hrep, hne, -⟩ := sample_interrupt
  obtain ⟨c, cs, hcalls⟩ := hrep.exists_call hne
  exact ⟨m, by rw [hcalls]; exact List.cons_ne_nil _ _,
    run_handlers (.snoc (.start sample_start) hint)⟩

end MyOS
