import Mathlib.Data.Nat.Notation
import Mathlib.Logic.Basic

/-!
# Code with an interrupt in between

A piece of code as the statements it runs one after the other, each with its place in the text: a
statement changes the state, or reads something of it on which the rest depends. An interrupt is one
more statement, which comes between two of them, before the first or behind the last.

An interrupt that acts the same on all the way and that none of the statements takes note of has the
effect it has after the last one. Elsewhere its placements are settled one by one.
-/

/-- Code with places in `ι` over states in `σ`, which stops with an error in `ε`. -/
inductive Code (ι σ ε : Type) : Type 1
  | done
  | stmt (pc : ι) (f : σ → Except ε σ) (next : Code ι σ ε)
  | load {α : Type} (pc : ι) (v : σ → Except ε α) (next : α → Code ι σ ε)

namespace Code

variable {ι σ ε : Type}

def run : Code ι σ ε → σ → Except ε σ
  | done, s => .ok s
  | stmt _ f c, s => f s >>= c.run
  | load _ v c, s => v s >>= fun a => (c a).run s

/-- The interrupt comes after `n` statements, or after the last one. -/
def runAt (int : σ → Except ε σ) : ℕ → Code ι σ ε → σ → Except ε σ
  | 0, c, s => int s >>= c.run
  | _ + 1, done, s => int s
  | n + 1, stmt _ f c, s => f s >>= c.runAt int n
  | n + 1, load _ v c, s => v s >>= fun a => (c a).runAt int n s

/-- The place of the statement that is due after `n` statements. -/
def pcAt : ℕ → Code ι σ ε → σ → Option ι
  | _, done, _ => none
  | 0, stmt pc _ _, _ => some pc
  | 0, load pc _ _, _ => some pc
  | n + 1, stmt _ f c, s =>
    match f s with
    | .ok s' => c.pcAt n s'
    | .error _ => none
  | n + 1, load _ v c, s =>
    match v s with
    | .ok a => (c a).pcAt n s
    | .error _ => none

/-- No statement is at a place in `U`. -/
def Avoids (U : ι → Prop) : Code ι σ ε → Prop
  | done => True
  | stmt pc _ c => ¬ U pc ∧ c.Avoids U
  | load pc _ c => ¬ U pc ∧ ∀ a, (c a).Avoids U

/-- No statement takes note of `g`, and all of them keep `I`. -/
def Ignores (I : σ → Prop) (g : σ → σ) : Code ι σ ε → Prop
  | done => True
  | stmt _ f c => (∀ s, I s → f (g s) = (f s).map g ∧ ∀ s', f s = .ok s' → I s') ∧ c.Ignores I g
  | load _ v c => (∀ s, I s → v (g s) = v s) ∧ ∀ a, (c a).Ignores I g

variable {int : σ → Except ε σ} {I : σ → Prop} {U : ι → Prop} {Good : σ → Prop} {g : σ → σ}
  {s s' : σ}

theorem bind_ok {α β : Type} {x : Except ε α} {f : α → Except ε β} {b : β} (h : x >>= f = .ok b) :
    ∃ a, x = .ok a ∧ f a = .ok b := by
  cases x with
  | error e => cases h
  | ok a => exact ⟨a, rfl, h⟩

theorem run_ignores : ∀ {c : Code ι σ ε} {s s' : σ}, c.Ignores I g → I s → c.run s = .ok s' →
    c.run (g s) = .ok (g s') ∧ I s'
  | done, s, s', _, hs, h => by
    obtain rfl := Except.ok.inj h
    exact ⟨rfl, hs⟩
  | stmt pc f c, s, s', hc, hs, h => by
    obtain ⟨s₁, h₁, h⟩ := bind_ok h
    obtain ⟨hf, hI⟩ := hc.1 s hs
    rw [run, hf, h₁]
    exact run_ignores hc.2 (hI s₁ h₁) h
  | load pc v c, s, s', hc, hs, h => by
    obtain ⟨a, ha, h⟩ := bind_ok h
    rw [run, hc.1 s hs, ha]
    exact run_ignores (hc.2 a) hs h

theorem runAt_ignores (hint : ∀ s, I s → int s = .ok (g s)) : ∀ {c : Code ι σ ε} {s s' : σ} (n : ℕ),
    c.Ignores I g → I s → c.run s = .ok s' → c.runAt int n s = .ok (g s')
  | c, s, s', 0, hc, hs, h => by
    rw [runAt, hint s hs]
    exact (run_ignores hc hs h).1
  | done, s, s', n + 1, _, hs, h => by
    obtain rfl := Except.ok.inj h
    exact hint s hs
  | stmt pc f c, s, s', n + 1, hc, hs, h => by
    obtain ⟨s₁, h₁, h⟩ := bind_ok h
    rw [runAt, h₁]
    exact runAt_ignores hint n hc.2 ((hc.1 s hs).2 s₁ h₁) h
  | load pc v c, s, s', n + 1, hc, hs, h => by
    obtain ⟨a, ha, h⟩ := bind_ok h
    rw [runAt, ha]
    exact runAt_ignores hint n (hc.2 a) hs h

theorem pcAt_avoids : ∀ {c : Code ι σ ε} {s : σ} (n : ℕ) {pc : ι}, c.Avoids U →
    c.pcAt n s = some pc → ¬ U pc
  | done, _, n, _, _, h => by
    cases n <;> cases h
  | stmt pc f c, s, 0, _, hc, h => by
    obtain rfl := Option.some.inj h
    exact hc.1
  | load pc v c, s, 0, _, hc, h => by
    obtain rfl := Option.some.inj h
    exact hc.1
  | stmt pc f c, s, n + 1, _, hc, h => by
    rw [pcAt] at h
    split at h
    · exact pcAt_avoids n hc.2 h
    · cases h
  | load pc v c, s, n + 1, _, hc, h => by
    rw [pcAt] at h
    split at h
    · exact pcAt_avoids n (hc.2 _) h
    · cases h

theorem avoids_of_not (h : ∀ pc, ¬ U pc) : ∀ c : Code ι σ ε, c.Avoids U
  | done => trivial
  | stmt pc _ c => ⟨h pc, avoids_of_not h c⟩
  | load pc _ c => ⟨h pc, fun a => avoids_of_not h (c a)⟩

/-- From `s` the code ends in a good state with the interrupt at just those placements where no
statement with a place in `U` is due. -/
def Tolerates (int : σ → Except ε σ) (Good : σ → Prop) (U : ι → Prop) (c : Code ι σ ε) (s : σ) :
    Prop :=
  ∀ n, (∃ s', c.runAt int n s = .ok s' ∧ Good s') ↔ ∀ pc, c.pcAt n s = some pc → ¬ U pc

/-- The same, and from `sp`, where the interrupt has come, the code ends in a good state just if
`A`. -/
structure Passes (int : σ → Except ε σ) (Good : σ → Prop) (U : ι → Prop) (A : Prop)
    (c : Code ι σ ε) (s sp : σ) : Prop where
  tolerates : c.Tolerates int Good U s
  after : (∃ s', c.run sp = .ok s' ∧ Good s') ↔ A

variable {pc : ι} {f : σ → Except ε σ} {A : Prop} {sp sp' : σ}

namespace Tolerates

theorem stmt {c : Code ι σ ε} (hf : f s = .ok s')
    (h0 : (∃ s'', (int s >>= (Code.stmt pc f c).run) = .ok s'' ∧ Good s'') ↔ ¬ U pc)
    (hc : c.Tolerates int Good U s') : (Code.stmt pc f c).Tolerates int Good U s := by
  intro n
  cases n with
  | zero => simpa [pcAt, runAt] using h0
  | succ n =>
    have hrun : (Code.stmt pc f c).runAt int (n + 1) s = c.runAt int n s' := by
      rw [runAt, hf]
      rfl
    have hpc : (Code.stmt pc f c).pcAt (n + 1) s = c.pcAt n s' := by
      rw [pcAt, hf]
    rw [hrun, hpc]
    exact hc n

theorem load {α : Type} {v : σ → Except ε α} {c : α → Code ι σ ε} {a : α} (hv : v s = .ok a)
    (h0 : (∃ s'', (int s >>= (Code.load pc v c).run) = .ok s'' ∧ Good s'') ↔ ¬ U pc)
    (hc : (c a).Tolerates int Good U s) : (Code.load pc v c).Tolerates int Good U s := by
  intro n
  cases n with
  | zero => simpa [pcAt, runAt] using h0
  | succ n =>
    have hrun : (Code.load pc v c).runAt int (n + 1) s = (c a).runAt int n s := by
      rw [runAt, hv]
      rfl
    have hpc : (Code.load pc v c).pcAt (n + 1) s = (c a).pcAt n s := by
      rw [pcAt, hv]
    rw [hrun, hpc]
    exact hc n

end Tolerates

namespace Passes

/-- The statement does the same to the state with the interrupt as to the one without it. -/
theorem stmt {c : Code ι σ ε} (hint : int s = .ok sp) (hf : f s = .ok s') (hfp : f sp = .ok sp')
    (hU : ¬ U pc ↔ A) (h : Passes int Good U A c s' sp') :
    Passes int Good U A (.stmt pc f c) s sp := by
  have hrun : (Code.stmt pc f c).run sp = c.run sp' := by
    rw [run, hfp]
    rfl
  have hafter : (∃ s', (Code.stmt pc f c).run sp = .ok s' ∧ Good s') ↔ A := by
    rw [hrun]
    exact h.after
  refine ⟨Tolerates.stmt hf ?_ h.tolerates, hafter⟩
  rw [hint]
  exact hafter.trans hU.symm

theorem load {α : Type} {v : σ → Except ε α} {c : α → Code ι σ ε} {a : α} (hint : int s = .ok sp)
    (hv : v s = .ok a) (hvp : v sp = .ok a) (hU : ¬ U pc ↔ A)
    (h : Passes int Good U A (c a) s sp) : Passes int Good U A (.load pc v c) s sp := by
  have hrun : (Code.load pc v c).run sp = (c a).run sp := by
    rw [run, hvp]
    rfl
  have hafter : (∃ s', (Code.load pc v c).run sp = .ok s' ∧ Good s') ↔ A := by
    rw [hrun]
    exact h.after
  refine ⟨Tolerates.load hv ?_ h.tolerates, hafter⟩
  rw [hint]
  exact hafter.trans hU.symm

theorem done (hint : int s = .ok sp) (hgood : Good sp) (hA : A) :
    Passes int Good U A (.done : Code ι σ ε) s sp := by
  refine ⟨fun n => ?_, iff_of_true ⟨sp, rfl, hgood⟩ hA⟩
  refine iff_of_true ?_ fun pc h => by cases n <;> cases h
  cases n with
  | zero => exact ⟨sp, by rw [runAt, hint]; rfl, hgood⟩
  | succ n => exact ⟨sp, hint, hgood⟩

/-- An interrupt the statements take no note of. -/
theorem of_ignores {c : Code ι σ ε} (hc : c.Ignores I g) (hint : ∀ s, I s → int s = .ok (g s))
    (hs : I s) (hrun : c.run s = .ok s') (hgood : Good (g s')) (hU : c.Avoids U) (hA : A) :
    Passes int Good U A c s (g s) :=
  ⟨fun n => iff_of_true ⟨g s', runAt_ignores hint n hc hs hrun, hgood⟩ fun _ => pcAt_avoids n hU,
    iff_of_true ⟨g s', (run_ignores hc hs hrun).1, hgood⟩ hA⟩

end Passes

end Code
