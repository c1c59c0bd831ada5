import Mathlib.Data.BitVec

/-!
# Segments and gates

How a processor in protected mode gets from a selector and an offset to a linear address, and from
an interrupt to its handler. A selector names a descriptor of the global or of the local table; its
type, its limit and the privilege decide whether the access is made.
-/

namespace Segmentation

/-- A descriptor, as the processor takes it apart. -/
structure Desc where
  base : BitVec 32
  /-- the last offset -/
  limit : ℕ
  type : BitVec 4
  /-- a segment of code or data, no descriptor of the system -/
  s : Bool
  dpl : ℕ
  present : Bool
  /-- of 32 bits -/
  big : Bool
  deriving DecidableEq

inductive Right
  | read
  | write
  | exec
  deriving DecidableEq

namespace Desc

variable (d : Desc)

def code : Bool := d.type.getLsbD 3

/-- Code that does not change the privilege. -/
def conforming : Bool := d.code && d.type.getLsbD 2

def readable : Bool := !d.code || d.type.getLsbD 1

def writable : Bool := !d.code && d.type.getLsbD 1

def expandDown : Bool := !d.code && d.type.getLsbD 2

/-- The offset is one of the segment. -/
def Has (off : BitVec 32) : Prop :=
  if d.expandDown then d.limit < off.toNat ∧ (d.big = true ∨ off.toNat < 2 ^ 16)
  else off.toNat ≤ d.limit

/-- Code of privilege `cpl` may have the segment in a register for this, through a selector that
asks for the privilege `rpl`. -/
def Grants (cpl rpl : ℕ) (r : Right) : Prop :=
  d.present = true ∧ d.s = true ∧
    match r with
    | .read => d.readable = true ∧ (d.conforming = true ∨ max cpl rpl ≤ d.dpl)
    | .write => d.writable = true ∧ max cpl rpl ≤ d.dpl
    | .exec => d.code = true ∧ (d.conforming = true ∧ d.dpl ≤ cpl ∨
        d.conforming = false ∧ d.dpl = cpl ∧ rpl ≤ cpl)

instance (off : BitVec 32) : Decidable (d.Has off) := by
  unfold Has
  infer_instance

instance (cpl rpl : ℕ) : ∀ r, Decidable (d.Grants cpl rpl r)
  | .read => inferInstanceAs (Decidable (_ ∧ _ ∧ _ ∧ (_ ∨ _)))
  | .write => inferInstanceAs (Decidable (_ ∧ _ ∧ _ ∧ _))
  | .exec => inferInstanceAs (Decidable (_ ∧ _ ∧ _ ∧ (_ ∧ _ ∨ _ ∧ _ ∧ _)))

variable {d}

/-- Only conforming code is open to less privilege than its own. -/
theorem Grants.le_dpl {cpl rpl : ℕ} {r : Right} (h : d.Grants cpl rpl r)
    (hc : d.conforming = false) : cpl ≤ d.dpl := by
  have hc' : d.conforming ≠ true := by rw [hc]; exact Bool.false_ne_true
  obtain ⟨-, -, h⟩ := h
  cases r with
  | read => exact (le_max_left _ _).trans (h.2.resolve_left hc')
  | write => exact (le_max_left _ _).trans h.2
  | exec =>
    rcases h.2 with hconf | hpriv
    · exact absurd hconf.1 hc'
    · exact hpriv.2.1.ge

end Desc

/-- The tables: none where there is no entry. -/
structure Tables where
  gdt : ℕ → Option Desc
  ldt : ℕ → Option Desc

def rpl (sel : BitVec 16) : ℕ := sel.toNat % 4

namespace Tables

variable (t : Tables)

/-- The first entry of the global table is not used. -/
def lookup (sel : BitVec 16) : Option Desc :=
  if sel.getLsbD 2 then t.ldt (sel.toNat / 8)
  else if sel.toNat / 8 = 0 then none else t.gdt (sel.toNat / 8)

/-- The linear address of an offset, where the access is made. -/
def translate (cpl : ℕ) (r : Right) (sel : BitVec 16) (off : BitVec 32) : Option (BitVec 32) :=
  (t.lookup sel).bind fun d =>
    if d.Grants cpl (rpl sel) r ∧ d.Has off then some (d.base + off) else none

/-- Code of privilege `cpl` gets at the byte, with whatever it loads to a segment register. -/
def Reaches (cpl : ℕ) (r : Right) (x : BitVec 32) : Prop :=
  ∃ sel off, t.translate cpl r sel off = some x

/-- A descriptor of the system, such as a gate for calls or a task, can be used. -/
def OpensSystem (cpl : ℕ) : Prop :=
  ∃ sel d, t.lookup sel = some d ∧ d.present = true ∧ d.s = false ∧ max cpl (rpl sel) ≤ d.dpl

variable {t} {cpl : ℕ} {r : Right} {x : BitVec 32}

theorem translate_eq_some {sel : BitVec 16} {off : BitVec 32} : t.translate cpl r sel off = some x ↔
    ∃ d, t.lookup sel = some d ∧ d.Grants cpl (rpl sel) r ∧ d.Has off ∧ x = d.base + off := by
  unfold translate
  rw [Option.bind_eq_some_iff]
  refine exists_congr fun d => and_congr_right fun _ => ?_
  split_ifs with h
  · rw [Option.some.injEq, ← and_assoc, and_iff_right h]
    exact eq_comm
  · exact iff_of_false nofun fun h' => h ⟨h'.1, h'.2.1⟩

theorem reaches_iff : t.Reaches cpl r x ↔
    ∃ sel d, t.lookup sel = some d ∧ d.Grants cpl (rpl sel) r ∧ d.Has (x - d.base) := by
  unfold Reaches
  simp only [translate_eq_some]
  constructor
  · rintro ⟨sel, off, d, hd, hg, hoff, rfl⟩
    exact ⟨sel, d, hd, hg, by rwa [BitVec.add_comm, BitVec.add_sub_cancel]⟩
  · rintro ⟨sel, d, hd, hg, hoff⟩
    exact ⟨sel, x - d.base, d, hd, hg, hoff, by rw [BitVec.add_comm, BitVec.sub_add_cancel]⟩

/-- What holds of all entries holds of those that are looked up. -/
theorem lookup_cases {P : Desc → Prop} {sel : BitVec 16} {d : Desc} (h : t.lookup sel = some d)
    (hldt : ∀ i d, t.ldt i = some d → P d) (hgdt : ∀ i d, i ≠ 0 → t.gdt i = some d → P d) : P
      d := by
  unfold lookup at h
  split_ifs at h with hti h0
  · exact hldt _ _ h
  · exact hgdt _ _ h0 h

end Tables

end Segmentation
