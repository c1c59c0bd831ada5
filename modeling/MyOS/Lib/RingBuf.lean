import MyOS.Lib.Run
import Mathlib.Logic.Function.Basic
import Mathlib.Data.List.Infix
import Mathlib.Data.Nat.ModEq
import Mathlib.Data.Fin.Basic
import Mathlib.Tactic.SplitIfs

/-!
# Rings

A queue kept in a buffer of `n` cells: the offset where the next value goes, the one of the oldest
value, and how many there are. The offsets go back to the start of the buffer when they meet its
end. Nothing keeps them inside of it but the way they are moved.
-/

variable {α : Type*}

structure RingBuf (α : Type*) where
  cell : ℕ → α
  head : ℕ
  tail : ℕ
  count : Int

namespace RingBuf

/-- The offset behind `i`. -/
def next (n i : ℕ) : ℕ := if i + 1 = n then 0 else i + 1

def push (n : ℕ) (r : RingBuf α) (v : α) : RingBuf α where
  cell := Function.update r.cell r.head v
  head := next n r.head
  tail := r.tail
  count := r.count + 1

def pop (n : ℕ) (r : RingBuf α) : RingBuf α :=
  { r with tail := next n r.tail, count := r.count - 1 }

/-- The ring holds the values of the list, the oldest first. -/
structure Holds (n : ℕ) (r : RingBuf α) (l : List α) : Prop where
  count : r.count = l.length
  room : l.length ≤ n
  tail : r.tail < n
  head : r.head = (r.tail + l.length) % n
  cells : ∀ i, (h : i < l.length) → r.cell ((r.tail + i) % n) = l[i]

variable {n : ℕ} {r : RingBuf α} {l : List α} {v : α}

theorem next_eq {i : ℕ} (h : i < n) : next n i = (i + 1) % n := by
  unfold next
  split_ifs with hi
  · rw [hi, Nat.mod_self]
  · exact (Nat.mod_eq_of_lt (by omega)).symm

/-- Offsets at different distances below the capacity are different. -/
theorem add_mod_ne {t i j : ℕ} (hi : i < n) (hj : j < n) (hij : i ≠ j) :
    (t + i) % n ≠ (t + j) % n := by
  intro h
  have hmod : i % n = j % n := Nat.ModEq.add_left_cancel' t h
  rw [Nat.mod_eq_of_lt hi, Nat.mod_eq_of_lt hj] at hmod
  exact hij hmod

theorem next_add_mod {t i : ℕ} (ht : t < n) : (next n t + i) % n = (t + (i + 1)) % n := by
  rw [next_eq ht, Nat.mod_add_mod, Nat.add_assoc, Nat.add_comm 1 i]

theorem Holds.head_lt (h : Holds n r l) : r.head < n := by
  rw [h.head]
  exact Nat.mod_lt _ (Nat.zero_lt_of_lt h.tail)

theorem Holds.empty {c : ℕ → α} (hn : 0 < n) : Holds n ⟨c, 0, 0, 0⟩ [] where
  count := rfl
  room := Nat.zero_le n
  tail := hn
  head := (Nat.zero_mod n).symm
  cells := nofun

theorem Holds.push (h : Holds n r l) (hroom : l.length < n) (v : α) :
    Holds n (r.push n v) (l ++ [v]) where
  count := by
    have := h.count
    simp only [RingBuf.push, List.length_append, List.length_singleton]
    omega
  room := by
    rw [List.length_append, List.length_singleton]
    omega
  tail := h.tail
  head := by
    change next n r.head = (r.tail + (l ++ [v]).length) % n
    rw [List.length_append, List.length_singleton, ← Nat.add_assoc, ← Nat.mod_add_mod, ← h.head]
    exact next_eq h.head_lt
  cells i hi := by
    simp only [RingBuf.push, h.head, Function.update_apply]
    rw [List.length_append, List.length_singleton] at hi
    by_cases hlast : i = l.length
    · simp [hlast]
    · have hlt : i < l.length := by omega
      rw [if_neg (add_mod_ne (by omega) hroom hlast), h.cells i hlt, List.getElem_append_left hlt]

theorem Holds.pop (h : Holds n r (v :: l)) : r.cell r.tail = v ∧ Holds n (r.pop n) l := by
  have hroom := h.room
  rw [List.length_cons] at hroom
  constructor
  · have h0 := h.cells 0 (Nat.zero_lt_succ _)
    rwa [Nat.add_zero, Nat.mod_eq_of_lt h.tail] at h0
  · refine ⟨?_, by omega, ?_, ?_, fun i hi => ?_⟩
    · have := h.count
      simp only [RingBuf.pop, List.length_cons] at *
      omega
    · simp only [RingBuf.pop, next_eq h.tail]
      exact Nat.mod_lt _ (by omega)
    · simp only [RingBuf.pop, next_add_mod h.tail]
      exact h.head
    · simp only [RingBuf.pop, next_add_mod h.tail]
      exact h.cells (i + 1) (Nat.succ_lt_succ hi)

/-! ## Offsets that wrap by themselves -/

/-- A ring in a buffer that is indexed modulo its size. -/
def ofFin [NeZero n] [Zero α] (buf : Fin n → α) (head tail : Fin n) (count : ℕ) : RingBuf α where
  cell i := if h : i < n then buf ⟨i, h⟩ else 0
  head := head
  tail := tail
  count := count

theorem next_val [NeZero n] (i : Fin n) : next n i = (i + 1 : Fin n) := by
  rw [next_eq i.isLt, Fin.val_add, Fin.val_one', Nat.add_mod_mod]

theorem ofFin_push [NeZero n] [Zero α] (buf : Fin n → α) (head tail : Fin n) (count : ℕ) (v : α) :
    (ofFin buf head tail count).push n v =
      ofFin (Function.update buf head v) (head + 1) tail (count + 1) := by
  simp only [ofFin, push, next_val, RingBuf.mk.injEq]
  refine ⟨funext fun i => ?_, trivial, trivial, rfl⟩
  simp only [Function.update_apply]
  by_cases hi : i < n
  · simp [hi, Fin.ext_iff]
  · have : i ≠ head := by omega
    simp [hi, this]

theorem ofFin_pop [NeZero n] [Zero α] (buf : Fin n → α) (head tail : Fin n) {count : ℕ}
    (hc : 0 < count) :
    (ofFin buf head tail count).pop n = ofFin buf head (tail + 1) (count - 1) := by
  simp only [ofFin, pop, next_val, RingBuf.mk.injEq, true_and]
  omega

theorem ofFin_cell [NeZero n] [Zero α] (buf : Fin n → α) (head tail : Fin n) (count : ℕ) :
    (ofFin buf head tail count).cell tail = buf tail :=
  dif_pos tail.isLt

/-! ## Histories -/

/-- What happens to a value at a ring. -/
inductive Event (α : Type*)
  | accepted (v : α)
  | dropped (v : α)
  | taken (v : α)

/-- The values accepted in a run, the oldest first. -/
def accepted (t : List (Event α)) : List α :=
  t.reverse.filterMap fun
    | .accepted v => some v
    | _ => none

/-- The values taken out in a run, the oldest first. -/
def taken (t : List (Event α)) : List α :=
  t.reverse.filterMap fun
    | .taken v => some v
    | _ => none

/-- What the ring holds is what has been accepted and not been taken out. -/
def Fifo (n : ℕ) (t : List (Event α)) (r : RingBuf α) : Prop :=
  ∃ l, Holds n r l ∧ accepted t = taken t ++ l

variable {t : List (Event α)}

theorem Fifo.taken_prefix (h : Fifo n t r) : taken t <+: accepted t := by
  obtain ⟨l, -, h⟩ := h
  exact ⟨l, h.symm⟩

theorem Fifo.start {c : ℕ → α} (hn : 0 < n) : Fifo n [] ⟨c, 0, 0, 0⟩ :=
  ⟨[], .empty hn, rfl⟩

theorem Fifo.accept (h : Fifo n t r) (hroom : r.count < n) (v : α) :
    Fifo n (.accepted v :: t) (r.push n v) := by
  obtain ⟨l, hl, ht⟩ := h
  have hlen : l.length < n := by
    have := hl.count
    omega
  refine ⟨l ++ [v], hl.push hlen v, ?_⟩
  simp only [accepted, taken, List.reverse_cons, List.filterMap_append] at ht ⊢
  simp [ht]

theorem Fifo.drop (h : Fifo n t r) (v : α) : Fifo n (.dropped v :: t) r := by
  obtain ⟨l, hl, ht⟩ := h
  refine ⟨l, hl, ?_⟩
  simp only [accepted, taken, List.reverse_cons, List.filterMap_append] at ht ⊢
  simp [ht]

theorem Fifo.take (h : Fifo n t r) (hsome : 0 < r.count) :
    Fifo n (.taken (r.cell r.tail) :: t) (r.pop n) := by
  obtain ⟨l, hl, ht⟩ := h
  cases l with
  | nil =>
    have := hl.count
    simp at this
    omega
  | cons v l =>
    obtain ⟨rfl, hpop⟩ := hl.pop
    refine ⟨l, hpop, ?_⟩
    simp only [accepted, taken, List.reverse_cons, List.filterMap_append] at ht ⊢
    simp [ht]

end RingBuf
