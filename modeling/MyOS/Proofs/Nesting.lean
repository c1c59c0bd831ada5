import Mathlib.Data.Finset.Card
import MyOS.Proofs.Contexts

/-!
# Handlers in handlers

A handler masks its line before it lets in other interrupts, and unmasks it when it lets in none. So
no handler is called for a line whose handler has not ended, and the masks are as they were when a
handler has ended, whatever has interrupted it.
-/

namespace MyOS

open Memory

variable {l : AsmLayout} {m m' : Machine} {sel : Slot → BitVec 16} {regs : Slot → Cpu}
  {t : List KAct}

/-! ## Masks that are put back -/

theorem or_and_not {x b : Byte} (h : x &&& b = 0) : (x ||| b) &&& ~~~b = x := by
  ext i hi
  have hand : (x &&& b)[i] = (0 : Byte)[i] := by rw [h]
  rw [BitVec.getElem_and] at hand
  rw [BitVec.getElem_and, BitVec.getElem_or, BitVec.getElem_not]
  cases hx : x[i] with
  | false => cases b[i] <;> rfl
  | true =>
    rw [hx, Bool.true_and] at hand
    simp [hand]

/-- A line that was let in is unmasked again. -/
theorem unmaskLine_maskLine {irq : Fin 16} (h : m.Lets irq) :
    unmaskLine irq (maskLine irq m.masks) = m.masks := by
  have hline := h.line
  unfold Machine.ctlmask at hline
  unfold maskLine unmaskLine Machine.masks
  split_ifs with hirq
  · rw [if_pos hirq] at hline
    exact Prod.ext (or_and_not hline) rfl
  · rw [if_neg hirq] at hline
    exact Prod.ext rfl (or_and_not hline)

/-! ## Calls and masks -/

theorem push_calls (m : Machine) (v : BitVec 32) : (m.push v).calls = m.calls := rfl

theorem push_masks (m : Machine) (v : BitVec 32) : (m.push v).masks = m.masks := rfl

theorem gate_lines (m : Machine) : m.gate.calls = m.calls ∧ m.gate.masks = m.masks := by
  unfold Machine.gate
  dsimp only
  split_ifs
  · exact ⟨by simp only [push_calls], by simp only [push_masks]; rfl⟩
  · exact ⟨by simp only [push_calls], by simp only [push_masks]; rfl⟩

theorem saveRegs_lines (m : Machine) :
    (saveRegs l m).calls = m.calls ∧ (saveRegs l m).masks = m.masks := by
  by_cases hk : m.kReenter + 1 = 0
  · rw [saveRegs_first hk]
    exact ⟨rfl, rfl⟩
  · rw [saveRegs_again hk]
    exact ⟨rfl, rfl⟩

theorem callSave_lines {ret : Addr} {m₁ : Machine} (h : callSave l ret m.gate = .ok m₁) :
    m₁.calls = m.calls ∧ m₁.masks = m.masks := by
  unfold callSave at h
  dsimp only at h
  split_ifs at h
  obtain rfl := Except.ok.inj h
  obtain ⟨hcalls, hmasks⟩ := saveRegs_lines (l := l) (m.gate.push ret)
  exact ⟨hcalls.trans (gate_lines m).1, hmasks.trans (gate_lines m).2⟩

theorem callSave_of_ok {α : Type} {ret : Addr} {f : Machine → Except Fault α} {a : α}
    (h : (callSave l ret m.gate).bind f = .ok a) : ∃ m₁, callSave l ret m.gate = .ok m₁ := by
  cases hsave : callSave l ret m.gate with
  | ok m₁ => exact ⟨m₁, rfl⟩
  | error f =>
    rw [hsave] at h
    cases h

theorem KAct.eq_interrupt {act : KAct} {irq : Fin 16} (h : act.entry = some (.hwint irq)) :
    act = .interrupt irq := by
  cases act with
  | interrupt irq' => rw [AsmEntry.hwint.inj (Option.some.inj h)]
  | trap => cases h
  | _ => cases h

theorem KAct.eq_trap {act : KAct} (h : act.entry = some .sysCall) : act = .trap := by
  cases act with
  | trap => rfl
  | _ => cases h

/-- A handler is called: its line is masked. -/
theorem enter_lines {act : KAct} {entry : AsmEntry} (hentry : act.entry = some entry)
    (h : KStep l m act m') :
    (∃ c : Call, m'.calls = c :: m.calls ∧ c.entry = entry ∧ c.esp = m'.cpu.esp) ∧
      m'.masks = entry.mask m.masks ∧ entry.unmask (entry.mask m.masks) = m.masks := by
  cases h with
  | @interrupt _ irq hlets _ hok =>
    obtain rfl : AsmEntry.hwint irq = entry := Option.some.inj hentry
    obtain ⟨m₁, hsave⟩ := callSave_of_ok hok
    obtain ⟨m₂, hok₂, -, hmasks, hcall⟩ := hwint_called hsave
    obtain rfl : m' = m₂ := Except.ok.inj (hok.symm.trans hok₂)
    obtain ⟨hcalls₁, hmasks₁⟩ := callSave_lines hsave
    refine ⟨⟨_, hcalls₁ ▸ hcall.calls, rfl, rfl⟩, ?_, unmaskLine_maskLine hlets⟩
    rw [hmasks, hmasks₁]
    rfl
  | trap _ hok =>
    obtain rfl : AsmEntry.sysCall = entry := Option.some.inj hentry
    obtain ⟨m₁, hsave⟩ := callSave_of_ok hok
    have hnr : m₁.cpu.eax.toNat < nrSysCall := by
      by_contra hnr
      cases hok.symm.trans (sysCall_wild hsave hnr)
    obtain ⟨m₂, hok₂, -, hmasks, hcall⟩ := sysCall_called hsave hnr
    obtain rfl : m' = m₂ := Except.ok.inj (hok.symm.trans hok₂)
    obtain ⟨hcalls₁, hmasks₁⟩ := callSave_lines hsave
    exact ⟨⟨_, hcalls₁ ▸ hcall.calls, rfl, rfl⟩, hmasks.trans hmasks₁, rfl⟩
  | _ => cases hentry

theorem restartReenter_lines (m : Machine) :
    (restartReenter m).calls = m.calls ∧ (restartReenter m).masks = m.masks := by
  unfold restartReenter Machine.iretd
  dsimp only
  split_ifs
  · exact ⟨rfl, rfl⟩
  · exact ⟨rfl, rfl⟩

theorem retRestart_lines (h : retRestart l m = .ok m') :
    m'.calls = m.calls ∧ m'.masks = m.masks := by
  unfold retRestart at h
  dsimp only at h
  split_ifs at h
  · obtain rfl := Except.ok.inj h
    exact restartReenter_lines _
  · obtain rfl := Except.ok.inj h
    exact restartReenter_lines _

/-- A handler has returned: its line is unmasked. -/
theorem ret_lines (h : KStep l m .ret m') :
    ∃ c : Call, m.calls = c :: m'.calls ∧ m'.masks = c.entry.unmask m.masks := by
  cases h with
  | @ret _ c cs hcalls hret hok =>
    obtain ⟨m₁, hfinish, hdropped⟩ := finish_dropped (l := l)
      { m with calls := cs, cpu := { m.cpu with esp := m.cpu.esp + 4 } } c.entry
    obtain ⟨hcalls', hmasks'⟩ := retRestart_lines (hfinish.symm.trans hok)
    refine ⟨c, ?_, hmasks'.trans hdropped.masks⟩
    rw [hcalls', hdropped.calls, hcalls]

/-! ## From a call to its return -/

theorem handled_lines {m₀ : Machine} (ht : Handled t) (hr : Run (· = m₀) (KStep l) t m) :
    m.calls = m₀.calls ∧ m.masks = m₀.masks := by
  induction ht generalizing m m₀ with
  | nil =>
    cases hr with
    | start h => exact ⟨congrArg _ h, congrArg _ h⟩
  | code _ ih =>
    cases hr with
    | snoc hr hs =>
      cases hs
      exact ⟨(ih hr).1, (ih hr).2⟩
  | @handler t t' act entry _ hentry _ ih ih' =>
    cases hr with
    | snoc hr hret =>
      obtain ⟨m₂, hr₂, hr'⟩ := hr.split
      cases hr₂ with
      | @snoc _ m₁ _ _ hr₁ hact =>
        obtain ⟨⟨c, hcalls, rfl, -⟩, hmasks, hback⟩ := enter_lines hentry hact
        obtain ⟨hcalls', hmasks'⟩ := ih' hr'
        obtain ⟨c', hcalls₃, hmasks₃⟩ := ret_lines hret
        obtain ⟨hcalls₁, hmasks₁⟩ := ih hr₁
        rw [hcalls', hcalls] at hcalls₃
        obtain ⟨rfl, hrest⟩ := List.cons.inj hcalls₃
        refine ⟨hrest.symm.trans hcalls₁, ?_⟩
        rw [hmasks₃, hmasks', hmasks, hback, hmasks₁]

theorem enter_context {s s' : Contexts} {act : KAct} {entry : AsmEntry}
    (hentry : act.entry = some entry) (h : ContextStep s act s') : ∃ cpu, s' =
      s.enter entry cpu := by
  cases h with
  | interrupt => exact ⟨_, by rw [Option.some.inj hentry]⟩
  | trap => exact ⟨_, by rw [Option.some.inj hentry]⟩
  | _ => cases hentry

/-- Within a handler, what has been saved stays. -/
theorem handled_contexts {s₀ s : Contexts} (hne : s₀.nest ≠ []) (ht : Handled t)
    (hr : Run (· = s₀) ContextStep t s) : s.nest = s₀.nest ∧ s.procs = s₀.procs := by
  induction ht generalizing s₀ s with
  | nil =>
    cases hr with
    | start h => exact ⟨congrArg _ h, congrArg _ h⟩
  | code _ ih =>
    cases hr with
    | snoc hr hs =>
      cases hs
      exact ⟨(ih hne hr).1, (ih hne hr).2⟩
  | @handler t t' act entry _ hentry _ ih ih' =>
    cases hr with
    | snoc hr hret =>
      obtain ⟨s₂, hr₂, hr'⟩ := hr.split
      cases hr₂ with
      | @snoc _ s₁ _ _ hr₁ hact =>
        obtain ⟨hnest₁, hprocs₁⟩ := ih hne hr₁
        have hne₁ : s₁.nest ≠ [] := hnest₁ ▸ hne
        obtain ⟨cpu, rfl⟩ := enter_context hentry hact
        rw [Contexts.enter_of_ne_nil hne₁] at hr'
        obtain ⟨hnest, hprocs⟩ := ih' (List.cons_ne_nil _ _) hr'
        cases hret
        unfold Contexts.leave
        rw [hnest]
        exact ⟨hnest₁, hprocs.trans hprocs₁⟩

/-- What runs is put back with all of its registers, but for the result of a system call. -/
theorem handler_context {s s₁ s₂ s' : Contexts} {act : KAct} {entry : AsmEntry}
    (hentry : act.entry = some entry) (hact : ContextStep s act s₁) (ht : Handled t)
    (hr : Run (· = s₁) ContextStep t s₂) (hret : ContextStep s₂ .ret s') :
    s'.nest = s.nest ∧
      (s.nest ≠ [] → s'.cpu = entry.result s₂.cpu.eax s.cpu ∧ s'.procs = s.procs) ∧
      (s.nest = [] → s'.cpu = s'.procs s'.ready ∧
        s'.procs = Function.update s.procs s.ready (entry.result s₂.cpu.eax s.cpu)) := by
  obtain ⟨cpu, rfl⟩ := enter_context hentry hact
  by_cases hn : s.nest = []
  · have henter : s.enter entry cpu = ⟨cpu, Function.update s.procs s.ready s.cpu, s.ready,
        [(entry, .proc s.ready)]⟩ := by
      unfold Contexts.enter
      rw [hn]
    rw [henter] at hr
    obtain ⟨hnest, hprocs⟩ := handled_contexts (List.cons_ne_nil _ _) ht hr
    cases hret
    unfold Contexts.leave
    rw [hnest, hprocs, hn]
    refine ⟨rfl, fun hne => absurd rfl hne, fun _ => ⟨rfl, ?_⟩⟩
    dsimp only
    rw [Function.update_self, Function.update_idem]
  · rw [Contexts.enter_of_ne_nil hn] at hr
    obtain ⟨hnest, hprocs⟩ := handled_contexts (List.cons_ne_nil _ _) ht hr
    cases hret
    unfold Contexts.leave
    rw [hnest, hprocs]
    exact ⟨rfl, fun _ => ⟨rfl, rfl⟩, fun h => absurd h hn⟩

theorem Mirrors.run {m₀ : Machine} {s₀ : Contexts} (h : Mirrors l sel m₀ s₀)
    (hr : Run (· = m₀) (KStep l) t m) :
    ∃ s, Run (· = s₀) ContextStep t s ∧ Mirrors l sel m s := by
  refine hr.invariant (P := fun t m => ∃ s, Run (· = s₀) ContextStep t s ∧
    Mirrors l sel m s) ?_ ?_
  · rintro _ rfl
    exact ⟨s₀, .start rfl, h⟩
  · rintro t m act m' ⟨s, hs, hrep⟩ hstep
    obtain ⟨s', hs', hrep'⟩ := hrep.step hstep
    exact ⟨s', .snoc hs hs', hrep'⟩

/-- From the call of a handler to its return, whatever interrupts it: the kernel goes on with the
registers it had, and the process with its own, those of the one that is ready now or later. Only
the result of a system call is put among them. The masks are as they were. -/
theorem handler_returns {m₀ m₁ m₂ : Machine} {t₀ : List KAct} {act : KAct} {entry : AsmEntry}
    (hr₀ : Run (KStart l sel regs) (KStep l) t₀ m₀) (hentry : act.entry = some entry)
    (hact : KStep l m₀ act m₁) (ht : Handled t) (hr : Run (· = m₁) (KStep l) t m₂)
    (hret : KStep l m₂ .ret m') :
    m'.calls = m₀.calls ∧ m'.masks = m₀.masks ∧ m'.kReenter = m₀.kReenter ∧
      (¬ m₀.cpu.InUser → m'.cpu = entry.result m₂.cpu.eax m₀.cpu) ∧
      (m₀.cpu.InUser → ∃ p ready, m₀.pProcReady = l.regs p ∧ m'.pProcReady = l.regs ready ∧
        m'.ldtr = sel ready ∧ m'.sp0 = l.regs ready + BitVec.ofNat 32 pStacktop ∧
        (ready = p → m'.cpu = entry.result m₂.cpu.eax m₀.cpu) ∧
        (ready ≠ p → HoldsRegs m₀.mem (l.regs ready) m'.cpu ∧
          HoldsRegs m'.mem (l.regs p) (entry.result m₂.cpu.eax m₀.cpu))) := by
  obtain ⟨s₀, -, hrep₀⟩ := run_contexts hr₀
  obtain ⟨s₁, hs₁, hrep₁⟩ := hrep₀.step hact
  obtain ⟨s₂, hs₂, hrep₂⟩ := hrep₁.run hr
  obtain ⟨s', hs', hrep'⟩ := hrep₂.step hret
  obtain ⟨hnest, hkernel, huser⟩ := handler_context hentry hs₁ ht hs₂ hs'
  have hcall : Run (· = m₀) (KStep l) [act] m₁ := .snoc (.start rfl) hact
  have hpart : Run (· = m₀) (KStep l) (.ret :: (t ++ [act])) m' := .snoc (hcall.append hr) hret
  obtain ⟨hcalls, hmasks⟩ := handled_lines (.handler .nil hentry ht) hpart
  refine ⟨hcalls, hmasks, ?_, fun hu => ?_, fun hu => ?_⟩
  · rw [hrep'.reenter, hrep₀.reenter, hnest]
  · have hne : s₀.nest ≠ [] := fun hn => hu (hrep₀.inUser_iff.2 hn)
    rw [hrep'.cpu, hrep₂.cpu, hrep₀.cpu]
    exact (hkernel hne).1
  · have hn := hrep₀.inUser_iff.1 hu
    obtain ⟨hcpu, hprocs⟩ := huser hn
    obtain ⟨-, hsp0, hldtr⟩ := hrep'.user (hnest.trans hn)
    refine ⟨s₀.ready, s'.ready, hrep₀.ready, hrep'.ready, hldtr, hsp0, fun h => ?_, fun h => ?_⟩
    · rw [hrep'.cpu, hcpu, hprocs, h, Function.update_self, hrep₂.cpu, hrep₀.cpu]
    · refine ⟨?_, ?_⟩
      · rw [hrep'.cpu, hcpu, hprocs, Function.update_of_ne h]
        exact hrep₀.held _ (.inr h)
      · have hheld := hrep'.held s₀.ready (.inr h.symm)
        rw [hprocs, Function.update_self] at hheld
        rw [hrep₂.cpu, hrep₀.cpu]
        exact hheld

/-- The handler of an interrupt has been run. -/
theorem handler_returns_interrupt : ∃ (m₀ m₂ m' : Machine) (cpu : Cpu),
    Run (KStart sampleLayout (fun _ => 0) (fun _ => sampleCpu)) (KStep sampleLayout)
      [.ret, .code cpu 0, .interrupt 1] m' ∧
    m'.calls = m₀.calls ∧ m'.masks = m₀.masks ∧ m'.kReenter = m₀.kReenter ∧
      (¬ m₀.cpu.InUser → m'.cpu = (AsmEntry.hwint 1).result m₂.cpu.eax m₀.cpu) ∧
      (m₀.cpu.InUser → ∃ p ready, m₀.pProcReady = sampleLayout.regs p ∧
        m'.pProcReady = sampleLayout.regs ready ∧ m'.ldtr = 0 ∧
        m'.sp0 = sampleLayout.regs ready + BitVec.ofNat 32 pStacktop ∧
        (ready = p → m'.cpu = (AsmEntry.hwint 1).result m₂.cpu.eax m₀.cpu) ∧
        (ready ≠ p → HoldsRegs m₀.mem (sampleLayout.regs ready) m'.cpu ∧
          HoldsRegs m'.mem (sampleLayout.regs p)
            ((AsmEntry.hwint 1).result m₂.cpu.eax m₀.cpu))) := by
  obtain ⟨m', cpu, hrun⟩ := sample_run
  obtain _ | ⟨hr, hret⟩ := id hrun
  obtain _ | ⟨hr, hcode⟩ := hr
  obtain _ | ⟨hr₀, hact⟩ := hr
  exact ⟨_, _, m', cpu, hrun,
    handler_returns hr₀ rfl hact (.code .nil) (.snoc (.start rfl) hcode) hret⟩

/-! ## Lines -/

/-- Interrupts of the line are not let in. -/
def Masked (irq : Fin 16) (p : Byte × Byte) : Prop :=
  (if irq.val < 8 then p.1 else p.2) &&& irqBit irq ≠ 0

theorem irqBit_eq (irq : Fin 16) : irqBit irq = BitVec.twoPow 8 (irq.val % 8) := rfl

theorem irqBit_ne_zero (irq : Fin 16) : irqBit irq ≠ 0 := by
  revert irq
  decide

theorem and_irqBit_ne_zero {x : Byte} {irq : Fin 16} :
    x &&& irqBit irq ≠ 0 ↔ x.getLsbD (irq.val % 8) = true := by
  rw [irqBit_eq, BitVec.and_twoPow, ← irqBit_eq]
  split_ifs with h
  · exact ⟨fun _ => h, fun _ => irqBit_ne_zero irq⟩
  · exact ⟨fun h' => absurd rfl h', fun h' => absurd h' h⟩

theorem masked_maskLine (irq : Fin 16) (p : Byte × Byte) : Masked irq (maskLine irq p) := by
  have hor : ∀ x : Byte, (x ||| irqBit irq) &&& irqBit irq ≠ 0 := fun x => by
    rw [and_irqBit_ne_zero, BitVec.getLsbD_or, irqBit_eq, BitVec.getLsbD_twoPow]
    simp [Nat.mod_lt]
  unfold Masked maskLine
  split_ifs
  · exact hor _
  · exact hor _

theorem Masked.maskLine {irq : Fin 16} {p : Byte × Byte} (h : Masked irq p) (irq' : Fin 16) :
    Masked irq (maskLine irq' p) := by
  have hor : ∀ x b : Byte, x &&& irqBit irq ≠ 0 → (x ||| b) &&& irqBit irq ≠ 0 := fun x b hx => by
    rw [and_irqBit_ne_zero] at hx ⊢
    rw [BitVec.getLsbD_or, hx, Bool.true_or]
  unfold Masked MyOS.maskLine at *
  split_ifs at h ⊢
  · exact hor _ _ h
  · exact h
  · exact h
  · exact hor _ _ h

theorem Masked.unmaskLine {irq irq' : Fin 16} {p : Byte × Byte} (h : Masked irq p)
    (hne : irq ≠ irq') : Masked irq (unmaskLine irq' p) := by
  have hand : ∀ x : Byte, irq.val % 8 ≠ irq'.val % 8 → x &&& irqBit irq ≠ 0 →
      x &&& ~~~irqBit irq' &&& irqBit irq ≠ 0 := fun x hmod hx => by
    rw [and_irqBit_ne_zero] at hx ⊢
    rw [BitVec.getLsbD_and, hx, BitVec.getLsbD_not, irqBit_eq, BitVec.getLsbD_twoPow]
    simp [hmod.symm, Nat.mod_lt]
  have hval := Fin.val_ne_of_ne hne
  unfold Masked MyOS.unmaskLine at *
  split_ifs at h ⊢
  · exact hand _ (by omega) h
  · exact h
  · exact h
  · exact hand _ (by omega) h

theorem not_lets_of_masked {irq : Fin 16} (h : Masked irq m.masks) : ¬ m.Lets irq :=
  fun hlets => h hlets.line

theorem lines_cons {c : Call} (h : m'.calls = c :: m.calls) :
    m'.lines = c.entry.line.toList ++ m.lines := by
  unfold Machine.lines
  rw [h]
  cases hc : c.entry with
  | hwint irq => exact List.filterMap_cons_some (by rw [hc]; rfl)
  | sysCall => exact List.filterMap_cons_none (by rw [hc]; rfl)

/-- The lines in the calls are different ones, and masked. -/
def LinesMasked (m : Machine) : Prop := m.lines.Nodup ∧ ∀ irq ∈ m.lines, Masked irq m.masks

theorem LinesMasked.enter {act : KAct} {entry : AsmEntry} (h : LinesMasked m)
    (hentry : act.entry = some entry) (hstep : KStep l m act m') : LinesMasked m' := by
  obtain ⟨⟨c, hcalls, rfl, -⟩, hmasks, -⟩ := enter_lines hentry hstep
  have hlines := lines_cons hcalls
  unfold LinesMasked
  rw [hlines, hmasks]
  cases hstep with
  | @interrupt _ irq hlets _ _ =>
    rw [← Option.some.inj hentry]
    change (irq :: m.lines).Nodup ∧ ∀ irq' ∈ irq :: m.lines, Masked irq' (maskLine irq m.masks)
    refine ⟨List.nodup_cons.2 ⟨fun hmem => not_lets_of_masked (h.2 irq hmem) hlets, h.1⟩, ?_⟩
    rintro irq' hmem
    rcases List.mem_cons.1 hmem with rfl | hmem
    · exact masked_maskLine _ _
    · exact (h.2 irq' hmem).maskLine irq
  | trap _ _ =>
    rw [← Option.some.inj hentry]
    exact h
  | _ => cases hentry

theorem LinesMasked.ret (h : LinesMasked m) (hstep : KStep l m .ret m') : LinesMasked m' := by
  obtain ⟨c, hcalls, hmasks⟩ := ret_lines hstep
  have hlines := lines_cons hcalls
  unfold LinesMasked at h ⊢
  rw [hlines] at h
  rw [hmasks]
  cases hc : c.entry with
  | hwint irq =>
    rw [hc] at h
    obtain ⟨hnot, hnodup⟩ := List.nodup_cons.1 h.1
    refine ⟨hnodup, fun irq' hmem => (h.2 irq' (List.mem_cons_of_mem _ hmem)).unmaskLine ?_⟩
    rintro rfl
    exact hnot hmem
  | sysCall =>
    rw [hc] at h
    exact h

/-- No handler is called for a line whose handler has not ended. -/
theorem lines_nodup (hr : Run (KStart l sel regs) (KStep l) t m) :
    m.lines.Nodup ∧ ∀ irq ∈ m.lines, ¬ m.Lets irq := by
  have hnil : ∀ m : Machine, m.calls = [] → LinesMasked m := fun m hm => by
    unfold LinesMasked Machine.lines
    rw [hm]
    exact ⟨List.nodup_nil, fun irq hirq => absurd hirq List.not_mem_nil⟩
  have hinv : (∃ s, Mirrors l sel m s) ∧ LinesMasked m := by
    refine hr.invariant (P := fun _ m => (∃ s, Mirrors l sel m s) ∧ LinesMasked m) ?_ ?_
    · intro m hm
      exact ⟨⟨_, mirrors_start hm⟩, hnil m ((mirrors_start hm).calls_nil rfl)⟩
    · rintro t m act m' ⟨⟨s, hrep⟩, hlines⟩ hstep
      obtain ⟨s', -, hrep'⟩ := hrep.step hstep
      refine ⟨⟨s', hrep'⟩, ?_⟩
      cases hentry : act.entry with
      | some entry => exact hlines.enter hentry hstep
      | none =>
        cases hstep with
        | user hu hu' hmem => exact hnil _ (hrep.calls_nil (hrep.inUser_iff.1 hu))
        | setRegs _ _ _ _ => exact hlines
        | interrupt _ _ _ => cases hentry
        | trap _ _ => cases hentry
        | code _ _ _ _ _ _ _ => exact hlines
        | ret hcalls hret hok => exact hlines.ret (.ret hcalls hret hok)
  exact ⟨hinv.2.1, fun irq hirq => not_lets_of_masked (hinv.2.2 irq hirq)⟩

theorem lines_nodup_interrupt : ∃ m : Machine, 1 ∈ m.lines ∧ ¬ m.Lets 1 := by
  obtain ⟨m', cpu, hr⟩ := sample_run
  obtain _ | ⟨hr, -⟩ := hr
  obtain _ | ⟨hr, -⟩ := hr
  have hmem := hr
  obtain _ | ⟨-, hact⟩ := hmem
  obtain ⟨⟨c, hcalls, hentry, -⟩, -⟩ := enter_lines rfl hact
  refine ⟨_, ?_, (lines_nodup hr).2 1 ?_⟩ <;>
  · rw [lines_cons hcalls, hentry]
    exact List.mem_cons_self

/-! ## The kernel's stack is large enough -/

/-- Interrupts are of some lines, system calls are asked for by processes, and a call of C code does
not need more than so many bytes of the stack. -/
structure KStepIn (l : AsmLayout) (lines : Finset (Fin 16)) (budget : ℕ) (m : Machine) (act : KAct)
    (m' : Machine) : Prop where
  step : KStep l m act m'
  lines : ∀ irq, act = .interrupt irq → irq ∈ lines
  trap : act = .trap → m.cpu.InUser
  code : ∀ cpu ready, act = .code cpu ready →
    ∀ c ∈ m.calls.head?, l.used cpu.esp ≤ l.used c.esp + budget

/-- Where the calls are on the stack: of system calls, there is only the first. -/
inductive Spaced (l : AsmLayout) (budget : ℕ) : List Call → Prop
  | nil : Spaced l budget []
  | first {c : Call} : l.used c.esp ≤ 24 → Spaced l budget [c]
  | cons {c c' : Call} {cs : List Call} {irq : Fin 16} : c.entry = .hwint irq →
      l.used c.esp ≤ l.used c'.esp + budget + 76 → Spaced l budget (c' :: cs) →
        Spaced l budget (c :: c' :: cs)

variable {budget : ℕ} {lines : Finset (Fin 16)}

theorem Spaced.used_le {c : Call} {cs : List Call} (h : Spaced l budget (c :: cs)) :
    l.used c.esp ≤ 24 + cs.length * (budget + 76) := by
  induction cs generalizing c with
  | nil =>
    cases h with
    | first h => omega
  | cons c' cs ih =>
    cases h with
    | cons _ hle hrest =>
      have := ih hrest
      rw [List.length_cons, Nat.succ_mul]
      omega

theorem Spaced.length_le {cs : List Call} (h : Spaced l budget cs) :
    cs.length ≤ (cs.filterMap fun c => c.entry.line).length + 1 := by
  induction h with
  | nil => exact Nat.zero_le _
  | first _ => exact Nat.le_add_left _ _
  | cons hc _ _ ih =>
    rw [List.filterMap_cons_some (by rw [hc]; rfl), List.length_cons, List.length_cons]
    exact Nat.succ_le_succ ih

structure InBudget (l : AsmLayout) (lines : Finset (Fin 16)) (budget : ℕ) (m : Machine) : Prop where
  spaced : Spaced l budget m.calls
  esp : ∀ c ∈ m.calls.head?, l.used m.cpu.esp ≤ l.used c.esp + budget
  lines : ∀ irq ∈ m.lines, irq ∈ lines

theorem InBudget.of_nil (h : m.calls = []) : InBudget l lines budget m := by
  refine ⟨by rw [h]; exact .nil, ?_, ?_⟩
  · rw [h]
    exact fun c hc => absurd hc (by simp)
  · unfold Machine.lines
    rw [h]
    exact fun irq hirq => absurd hirq List.not_mem_nil

theorem Stacked.used_proc {mem : Mem} {c : Call} {cs : List Call} {e : AsmEntry} {p : Slot}
    {nest : List (AsmEntry × Origin)} (h : Stacked l mem (c :: cs) ((e, .proc p) :: nest)) :
    cs = [] ∧ l.used c.esp = 8 + 4 * c.entry.args := by
  cases h with
  | proc _ htop hesp _ => exact ⟨rfl, by omega⟩

theorem Stacked.used_kernel {mem : Mem} {c : Call} {cs : List Call} {e : AsmEntry} {cpu : Cpu}
    {nest : List (AsmEntry × Origin)} (h : Stacked l mem (c :: cs) ((e, .kernel cpu) :: nest)) :
    cs ≠ [] ∧ l.used c.esp = l.used cpu.esp + 72 + 4 * c.entry.args := by
  cases h with
  | kernel _ htop hesp _ _ _ _ _ _ _ => exact ⟨List.cons_ne_nil _ _, by omega⟩

theorem InBudget.enter {s : Contexts} {act : KAct} {entry : AsmEntry}
    (h : InBudget l lines budget m) (hrep : Mirrors l sel m s) (hentry : act.entry = some entry)
    (hstep : KStepIn l lines budget m act m') : InBudget l lines budget m' := by
  obtain ⟨s', hs', hrep'⟩ := hrep.step hstep.step
  obtain ⟨cpu, rfl⟩ := enter_context hentry hs'
  obtain ⟨⟨c, hcalls, rfl, hesp⟩, -, -⟩ := enter_lines hentry hstep.step
  have hlines := lines_cons hcalls
  have hstacked := hrep'.stacked
  rw [hcalls] at hstacked
  refine ⟨?_, ?_, ?_⟩
  · by_cases hn : s.nest = []
    · have hnest : (s.enter c.entry cpu).nest = [(c.entry, .proc s.ready)] := by
        unfold Contexts.enter
        rw [hn]
      rw [hnest] at hstacked
      obtain ⟨-, hused⟩ := hstacked.used_proc
      have := c.entry.args_le
      rw [hcalls, hrep.calls_nil hn]
      exact .first (by omega)
    · obtain ⟨c', cs, hcs⟩ := hrep.exists_call hn
      obtain ⟨irq, hirq⟩ : ∃ irq, c.entry = .hwint irq := by
        cases hc : c.entry with
        | hwint irq => exact ⟨irq, rfl⟩
        | sysCall =>
          have htrap := KAct.eq_trap (hc ▸ hentry)
          exact absurd (hrep.inUser_iff.1 (hstep.trap htrap)) hn
      rw [Contexts.enter_of_ne_nil hn] at hstacked
      obtain ⟨-, hused⟩ := hstacked.used_kernel
      have hbelow := h.esp c' (by rw [hcs]; rfl)
      rw [hirq, ← hrep.cpu] at hused
      have hspaced := h.spaced
      rw [hcalls]
      rw [hcs] at hspaced ⊢
      refine .cons hirq ?_ hspaced
      change _ = _ + 72 + 4 * 1 at hused
      omega
  · rw [hcalls]
    rintro _ ⟨⟩
    rw [hesp]
    exact Nat.le_add_right _ _
  · rw [hlines]
    intro irq hirq
    rcases List.mem_append.1 hirq with hirq | hirq
    · refine hstep.lines irq ?_
      cases hc : c.entry with
      | hwint irq' =>
        rw [hc] at hirq
        obtain rfl : irq = irq' := List.mem_singleton.1 hirq
        exact KAct.eq_interrupt (hc ▸ hentry)
      | sysCall =>
        rw [hc] at hirq
        exact absurd hirq List.not_mem_nil
    · exact h.lines irq hirq

theorem InBudget.ret {s : Contexts} (h : InBudget l lines budget m) (hrep : Mirrors l sel m s)
    (hstep : KStep l m .ret m') : InBudget l lines budget m' := by
  obtain ⟨s', hs', hrep'⟩ := hrep.step hstep
  obtain ⟨c, hcalls, -⟩ := ret_lines hstep
  have hlines := lines_cons hcalls
  have hspaced := h.spaced
  have hstacked := hrep.stacked
  rw [hcalls] at hspaced hstacked
  cases hs' with
  | ret hne =>
    obtain ⟨⟨e, origin⟩, nest, hnest⟩ := List.exists_cons_of_ne_nil hne
    rw [hnest] at hstacked
    cases origin with
    | proc p => exact .of_nil hstacked.used_proc.1
    | kernel cpu =>
      obtain ⟨-, hused⟩ := hstacked.used_kernel
      have hesp : m'.cpu.esp = cpu.esp := by
        rw [hrep'.cpu]
        unfold Contexts.leave
        rw [hnest]
        exact AsmEntry.result_esp
      generalize hcs : m'.calls = cs at hspaced
      refine ⟨?_, ?_, fun irq hirq => h.lines irq (hlines ▸ List.mem_append_right _ hirq)⟩
      · rw [hcs]
        cases hspaced with
        | first _ => exact .nil
        | cons _ _ hrest => exact hrest
      · rw [hcs, hesp]
        cases hspaced with
        | first _ => exact fun c hc => absurd hc (by simp)
        | cons hirq hle _ =>
          rintro _ ⟨⟩
          rw [hirq] at hused
          change _ = _ + 72 + 4 * 1 at hused
          omega

/-- Where the calls of C code keep to their part of the stack, it is large enough: an interrupt that
is let in finds room for its handler. -/
theorem stack_fits (hfits : 24 + budget + (lines.card - 1) * (budget + 76) + 100 ≤ stackSpace)
    (hr : Run (KStart l sel regs) (KStepIn l lines budget) t m) {irq : Fin 16}
    (hirq : irq ∈ lines) (hlets : m.Lets irq) : m.Room l := by
  have hinv : (∃ s, Mirrors l sel m s) ∧ InBudget l lines budget m := by
    refine hr.invariant (P := fun _ m => (∃ s, Mirrors l sel m s) ∧ InBudget l lines budget m)
      ?_ ?_
    · intro m hm
      exact ⟨⟨_, mirrors_start hm⟩, .of_nil ((mirrors_start hm).calls_nil rfl)⟩
    · rintro t m act m' ⟨⟨s, hrep⟩, hin⟩ hstep
      obtain ⟨s', -, hrep'⟩ := hrep.step hstep.step
      refine ⟨⟨s', hrep'⟩, ?_⟩
      cases hentry : act.entry with
      | some entry => exact hin.enter hrep hentry hstep
      | none =>
        obtain ⟨hkstep, -, -, hcode⟩ := hstep
        cases hkstep with
        | user hu hu' hmem => exact .of_nil (hrep.calls_nil (hrep.inUser_iff.1 hu))
        | setRegs _ _ _ _ => exact ⟨hin.spaced, hin.esp, hin.lines⟩
        | interrupt _ _ _ => cases hentry
        | trap _ _ => cases hentry
        | code _ _ _ _ _ _ _ => exact ⟨hin.spaced, hcode _ _ rfl, hin.lines⟩
        | ret hcalls hret hok => exact hin.ret hrep (.ret hcalls hret hok)
  obtain ⟨⟨s, hrep⟩, hin⟩ := hinv
  obtain ⟨hnodup, hnot⟩ := lines_nodup (hr.mono fun _ _ _ h => h.step)
  by_cases hu : m.cpu.InUser
  · exact .inl hu
  · obtain ⟨c, cs, hcalls⟩ := hrep.exists_call fun hn => hu (hrep.inUser_iff.2 hn)
    have hspaced := hin.spaced
    have hlength : m.calls.length ≤ m.lines.length + 1 := hin.spaced.length_le
    have hesp := hin.esp c (by rw [hcalls]; rfl)
    rw [hcalls, List.length_cons] at hlength
    rw [hcalls] at hspaced
    -- the line that is let in is one more than those in the calls
    have hcard : (irq :: m.lines).length ≤ lines.card := by
      rw [← List.toFinset_card_of_nodup (List.nodup_cons.2
        ⟨fun hmem => hnot irq hmem hlets, hnodup⟩)]
      refine Finset.card_le_card fun irq' hmem => ?_
      rcases List.mem_cons.1 (List.mem_toFinset.1 hmem) with rfl | hmem
      · exact hirq
      · exact hin.lines irq' hmem
    rw [List.length_cons] at hcard
    have hdepth : cs.length ≤ lines.card - 1 := by omega
    have hused := hspaced.used_le
    have hmul : cs.length * (budget + 76) ≤ (lines.card - 1) * (budget + 76) :=
      Nat.mul_le_mul_right _ hdepth
    exact .inr (by omega)

/-- The clock, the keyboard and the disk: each call of C code has 590 bytes. Here the handler of the
keyboard has let in interrupts. -/
theorem stack_fits_keyboard : ∃ m : Machine, m.Lets 0 ∧ ¬ m.cpu.InUser ∧ m.Room sampleLayout := by
  obtain ⟨m₁, s, hint, hrep, hne, hready⟩ := sample_interrupt
  obtain ⟨c, cs, hcs⟩ := hrep.exists_call hne
  obtain ⟨⟨c', hcalls, -, hesp⟩, hmasks, -⟩ := enter_lines rfl hint
  obtain rfl : c = c' := (List.cons.inj (hcs.symm.trans hcalls)).1
  have hle := hrep.esp c (by rw [hcs]; rfl)
  have hint' : KStepIn sampleLayout {0, 1, 14} 590 (restartProc sampleMachine) (.interrupt 1)
      m₁ := by
    refine ⟨hint, fun irq h => ?_, fun h => ?_, fun _ _ h => ?_⟩
    · cases h
      decide
    · cases h
    · cases h
  have hcode : KStepIn sampleLayout {0, 1, 14} 590 m₁
      (.code { m₁.cpu with eflags := interruptFlag } s.ready)
      { m₁ with
        cpu := { m₁.cpu with eflags := interruptFlag }
        pProcReady := sampleLayout.regs s.ready } := by
    refine ⟨.code hcs rfl rfl (hrep.cpu ▸ hle.1) (hrep.cpu ▸ hle.2) (fun _ _ => rfl)
      ⟨_, (hrep.kernel hne).2.2, hrep.held s.ready (.inl hne)⟩, fun irq h => ?_, fun h => ?_,
      fun cpu ready h c₁ hc₁ => ?_⟩
    · cases h
    · cases h
    · cases h
      rw [hcs] at hc₁
      obtain rfl : c = c₁ := Option.some.inj hc₁
      rw [hesp]
      exact Nat.le_add_right _ _
  have hlets : Machine.Lets { m₁ with
      cpu := { m₁.cpu with eflags := interruptFlag }
      pProcReady := sampleLayout.regs s.ready } 0 := by
    refine ⟨?_, ?_, fun h => absurd h (by decide)⟩
    · change interruptFlag &&& interruptFlag ≠ 0
      decide
    · have hmask : m₁.intMCtlmask = 2 := congrArg Prod.fst hmasks
      change m₁.intMCtlmask &&& irqBit 0 = 0
      rw [hmask]
      decide
  have hkernel : ¬ m₁.cpu.InUser := fun hu => (hrep.kernel hne).1 (hrep.cpu ▸ hu)
  have hroom := stack_fits (by decide) (.snoc (.snoc (.start sample_start) hint') hcode) (by decide)
    hlets
  exact ⟨_, hlets, hkernel, hroom⟩

end MyOS
