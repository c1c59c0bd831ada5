import Mathlib.Data.Fintype.Card
import Mathlib.Logic.Function.Basic

/-!
# Chains of pointers

A singly linked list threaded through its own nodes: `next a` is the node after `a`, and a head
pointer says where the list starts. `Chain next h l` says that the walk from `h` visits exactly
`l` and ends. A chain never repeats a node, so a walk with enough fuel reaches its end, and the
list operations (append at the tail, pop the head, unlink from the middle) act on the chain as
they act on the list.
-/

namespace Pointer

variable {α : Type*}

/-- Walking from `h` visits `l` and leaves the pointer `h'`. -/
def Seg (next : α → Option α) : Option α → List α → Option α → Prop
  | h, [], h' => h = h'
  | h, a :: l, h' => h = some a ∧ Seg next (next a) l h'

/-- Walking from `h` visits `l` and ends. -/
def Chain (next : α → Option α) (h : Option α) (l : List α) : Prop :=
  Seg next h l none

variable {next : α → Option α}

@[simp] theorem seg_nil {h h' : Option α} : Seg next h [] h' ↔ h = h' := Iff.rfl

@[simp] theorem seg_cons {h h' : Option α} {a : α} {l : List α} :
    Seg next h (a :: l) h' ↔ h = some a ∧ Seg next (next a) l h' := Iff.rfl

theorem seg_append : ∀ {l : List α} {m : List α} {h h'' : Option α},
    Seg next h (l ++ m) h'' ↔ ∃ h', Seg next h l h' ∧ Seg next h' m h''
  | [], m, h, h'' => by simp
  | a :: l, m, h, h'' => by
    simp only [List.cons_append, seg_cons, seg_append (l := l)]
    constructor
    · rintro ⟨rfl, h', h1, h2⟩
      exact ⟨h', ⟨rfl, h1⟩, h2⟩
    · rintro ⟨h', ⟨rfl, h1⟩, h2⟩
      exact ⟨rfl, h', h1, h2⟩

@[simp] theorem chain_nil {h : Option α} : Chain next h [] ↔ h = none := Iff.rfl

@[simp] theorem chain_cons {h : Option α} {a : α} {l : List α} :
    Chain next h (a :: l) ↔ h = some a ∧ Chain next (next a) l := Iff.rfl

theorem chain_none {l : List α} : Chain next none l ↔ l = [] := by
  cases l <;> simp

theorem Chain.unique : ∀ {l l' : List α} {h : Option α}, Chain next h l → Chain next h l' → l = l'
  | [], l', h, hl, hl' => by
    rw [chain_nil] at hl
    rw [hl, chain_none] at hl'
    exact hl'.symm
  | a :: l, [], h, hl, hl' => by
    rw [chain_nil] at hl'
    rw [hl', chain_none] at hl
    exact hl
  | a :: l, b :: l', h, hl, hl' => by
    obtain ⟨rfl, h1⟩ := hl
    obtain ⟨h2, h3⟩ := hl'
    cases h2
    rw [Chain.unique h1 h3]

/-- The walk from a node of a chain is the rest of the chain. -/
theorem Chain.suffix {l m : List α} {a : α} {h : Option α} (hc : Chain next h (l ++ a :: m)) :
    Chain next (some a) (a :: m) := by
  obtain ⟨h', -, h1⟩ := seg_append.1 hc
  obtain ⟨rfl, h2⟩ := h1
  exact ⟨rfl, h2⟩

theorem Chain.nodup : ∀ {l : List α} {h : Option α}, Chain next h l → l.Nodup
  | [], _, _ => List.nodup_nil
  | a :: l, h, hc => by
    refine List.nodup_cons.2 ⟨fun ha => ?_, Chain.nodup (chain_cons.1 hc).2⟩
    -- the walk from the second visit of `a` would be as long as the walk from the first
    obtain ⟨l₁, l₂, rfl⟩ := List.append_of_mem ha
    have h1 : Chain next h (a :: l₁ ++ a :: l₂) := hc
    have h2 := (Chain.suffix (l := []) hc).unique h1.suffix
    have := congrArg List.length h2
    simp only [List.length_cons, List.length_append] at this
    omega

theorem Chain.length_le [Fintype α] {l : List α} {h : Option α} (hc : Chain next h l) :
    l.length ≤ Fintype.card α :=
  hc.nodup.length_le_card

section Update

variable [DecidableEq α]

theorem Seg.update : ∀ {l : List α} {h h' : Option α} {a : α} (v : Option α), a ∉ l →
    Seg next h l h' → Seg (Function.update next a v) h l h'
  | [], _, _, _, _, _, hs => hs
  | b :: l, _, _, a, v, ha, hs => by
    obtain ⟨rfl, h1⟩ := hs
    rw [List.mem_cons, not_or] at ha
    refine ⟨rfl, ?_⟩
    rw [Function.update_of_ne (Ne.symm ha.1)]
    exact h1.update v ha.2

/-- A chain does not see a write to a node outside it. -/
theorem Chain.update {l : List α} {h : Option α} {a : α} (v : Option α) (ha : a ∉ l)
    (hc : Chain next h l) : Chain (Function.update next a v) h l :=
  Seg.update v ha hc

theorem chain_single (s : α) : Chain (Function.update next s none) (some s) [s] := by
  simp

/-- Appending at the tail: the last node is linked to a fresh one. -/
theorem Chain.push {l : List α} {h : Option α} {t s : α} (hc : Chain next h (l ++ [t]))
    (hs : s ∉ l ++ [t]) :
    Chain (Function.update (Function.update next t (some s)) s none) h (l ++ [t] ++ [s]) := by
  have hn := hc.nodup
  obtain ⟨h', h1, h2⟩ := seg_append.1 hc
  obtain ⟨rfl, -⟩ := h2
  simp only [List.mem_append, List.mem_singleton, not_or] at hs
  have ht : t ∉ l := fun ht => List.nodup_append.1 hn |>.2.2 t ht t (by simp) rfl
  refine seg_append.2 ⟨some s, seg_append.2 ⟨some t, (h1.update _ ht).update _ hs.1, ?_⟩, ?_⟩
  · simp [Ne.symm hs.2]
  · simp

theorem Chain.pop {l : List α} {h : Option α} {a : α} (hc : Chain next h (a :: l)) :
    Chain (Function.update next a none) (next a) l :=
  Chain.update none (List.nodup_cons.1 hc.nodup).1 hc.2

/-- Unlinking `x` from behind `p`. -/
theorem Chain.unlink {l m : List α} {h : Option α} {p x : α}
    (hc : Chain next h (l ++ p :: x :: m)) :
    Chain (Function.update (Function.update next p (next x)) x none) h (l ++ p :: m) := by
  have hn := hc.nodup
  obtain ⟨h', h1, rfl, h2, h3⟩ := seg_append.1 hc
  simp only [List.nodup_append, List.nodup_cons, List.mem_cons, not_or, ne_eq] at hn
  obtain ⟨-, ⟨⟨hpx, hpm⟩, hxm, -⟩, hd⟩ := hn
  have hpl : p ∉ l := fun hp => hd p hp p (.inl rfl) rfl
  have hxl : x ∉ l := fun hx => hd x hx x (.inr (.inl rfl)) rfl
  refine seg_append.2 ⟨some p, (h1.update _ hpl).update _ hxl, rfl, ?_⟩
  rw [Function.update_of_ne hpx, Function.update_self]
  exact (h3.update _ hpm).update _ hxm

end Update

/-! ## Walks with fuel -/

/-- `while (p->next) p = p->next;` `none` when the fuel runs out. -/
def lastFrom (next : α → Option α) : ℕ → α → Option α
  | 0, _ => none
  | n + 1, p =>
    match next p with
    | none => some p
    | some q => lastFrom next n q

/-- `while (p) { if (p == x) break; prev = p; p = p->next; }`: what `prev` and `p` are then. -/
def findPrev [DecidableEq α] (next : α → Option α) (x : α) :
    ℕ → Option α → Option α → Option (Option α × Option α)
  | _, prev, none => some (prev, none)
  | 0, _, some _ => none
  | n + 1, prev, some p =>
    if p = x then some (prev, some p) else findPrev next x n (some p) (next p)

theorem lastFrom_of_chain : ∀ {l : List α} {a : α} {n : ℕ}, Chain next (some a) l →
    l.length ≤ n → ∃ l₀ t, l = l₀ ++ [t] ∧ lastFrom next n a = some t
  | [], a, n, hc, _ => by simp at hc
  | b :: l, _, 0, _, hn => by simp at hn
  | b :: l, a, n + 1, hc, hn => by
    obtain ⟨hab, h1⟩ := hc
    obtain rfl : a = b := by simpa using hab
    rcases hx : next a with _ | c
    · rw [hx] at h1
      obtain rfl := chain_none.1 h1
      exact ⟨[], a, rfl, by simp [lastFrom, hx]⟩
    · rw [hx] at h1
      obtain ⟨l₀, t, rfl, ht⟩ := lastFrom_of_chain h1 (by simpa using hn)
      exact ⟨a :: l₀, t, rfl, by simp [lastFrom, hx, ht]⟩

theorem findPrev_of_chain [DecidableEq α] {x : α} : ∀ {l m : List α} {prev h : Option α} {n : ℕ},
    Chain next h (l ++ x :: m) → x ∉ l → l.length < n →
      findPrev next x n prev h = some ((prev :: l.map some).getLast (by simp), some x)
  | _, _, _, _, 0, _, _, hn => absurd hn (Nat.not_lt_zero _)
  | [], m, prev, h, n + 1, hc, _, _ => by
    obtain ⟨rfl, -⟩ := hc
    simp [findPrev]
  | a :: l, m, prev, h, n + 1, hc, hx, hn => by
    obtain ⟨rfl, h1⟩ := hc
    rw [List.mem_cons, not_or] at hx
    rw [findPrev, if_neg (Ne.symm hx.1),
      findPrev_of_chain h1 hx.2 (by simpa using hn)]
    rcases l with _ | ⟨b, l⟩ <;> simp

end Pointer
