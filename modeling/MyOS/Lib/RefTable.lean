import Mathlib.Algebra.BigOperators.Group.Finset.Basic
import Mathlib.Data.Fintype.BigOperators

/-!
# Tables of shared descriptors

Handles point to descriptors, descriptors to objects. A descriptor counts the handles that point to
it and is free when there is none; an object counts at least the handles that reach it. Connecting
a handle, sharing a descriptor with one more handle and dropping a handle keep these counts.
-/

namespace RefTable

open Finset

variable {ι δ κ : Type*} [Fintype ι] [DecidableEq ι] [DecidableEq δ] [DecidableEq κ]

/-- How many handles point to `a`. -/
def refCount (f : ι → Option δ) (a : δ) : ℕ := #{i | f i = some a}

omit [DecidableEq ι] in
theorem refCount_eq_zero {f : ι → Option δ} {a : δ} : refCount f a = 0 ↔ ∀ i, f i ≠ some a := by
  simp [refCount, filter_eq_empty_iff]

omit [DecidableEq ι] in
theorem refCount_pos {f : ι → Option δ} {a : δ} {i : ι} (h : f i = some a) : 0 < refCount f a :=
  card_pos.2 ⟨i, by simpa using h⟩

theorem refCount_update (f : ι → Option δ) (i : ι) (v : Option δ) (a : δ) :
    refCount (Function.update f i v) a + (if f i = some a then 1 else 0) =
      refCount f a + (if v = some a then 1 else 0) := by
  have hrest : ∑ x ∈ univ.erase i, (if Function.update f i v x = some a then 1 else 0) =
      ∑ x ∈ univ.erase i, (if f x = some a then 1 else 0) :=
    sum_congr rfl fun x hx => by rw [Function.update_of_ne (ne_of_mem_erase hx)]
  unfold refCount
  rw [card_filter, card_filter, ← add_sum_erase univ _ (mem_univ i), hrest,
    ← add_sum_erase univ (fun x => if f x = some a then 1 else 0) (mem_univ i),
    Function.update_self]
  omega

/-- What the handles point to, with its count, and the objects of the descriptors with theirs. -/
@[ext]
structure Table (ι δ κ : Type*) where
  ref : ι → Option δ
  cnt : δ → ℤ
  obj : δ → Option κ
  objCnt : κ → ℤ

/-- The object a handle reaches. -/
def Table.reach (t : Table ι δ κ) (i : ι) : Option κ := (t.ref i).bind t.obj

/-- The counts are right, with `extra` references to the objects besides those of handles. -/
structure Counted (t : Table ι δ κ) (extra : κ → ℕ) : Prop where
  free : ∀ d, t.obj d = none ↔ refCount t.ref d = 0
  exact : ∀ d, t.obj d ≠ none → t.cnt d = refCount t.ref d
  enough : ∀ q, (refCount t.reach q : ℤ) + extra q ≤ t.objCnt q

namespace Counted

variable {t t' : Table ι δ κ} {extra extra' : κ → ℕ}

omit [DecidableEq ι] in
theorem objCnt_nonneg (h : Counted t extra) (q : κ) : 0 ≤ t.objCnt q := by
  have := h.enough q
  omega

omit [DecidableEq ι] in
/-- The object of a descriptor in use is counted. -/
theorem objCnt_pos (h : Counted t extra) {d : δ} {q : κ} (hd : t.obj d = some q) :
    0 < t.objCnt q := by
  obtain ⟨i, hi⟩ : ∃ i, t.ref i = some d := by
    by_contra hno
    have hfree := (h.free d).2 (refCount_eq_zero.2 fun i hi => hno ⟨i, hi⟩)
    exact Option.some_ne_none q (hd.symm.trans hfree)
  have hreach : t.reach i = some q := by rw [Table.reach, hi, Option.bind_some, hd]
  have hpos := refCount_pos hreach
  have := h.enough q
  omega

omit [DecidableEq ι] in
/-- An object may be counted once more, for a reference of another kind or for none. -/
theorem count (h : Counted t extra) (objCnt : κ → ℤ)
    (hle : ∀ q, t.objCnt q + extra' q ≤ objCnt q + extra q) :
    Counted { t with objCnt } extra' where
  free := h.free
  exact := h.exact
  enough q := by
    have := h.enough q
    have := hle q
    change (refCount t.reach q : ℤ) + _ ≤ objCnt q
    omega

/-- A handle that points nowhere is connected to a free descriptor; the object has been counted
before. -/
theorem connect {i : ι} {d : δ} {q : κ} (h : Counted t extra') (hi : t.ref i = none)
    (hd : t.obj d = none) (hextra : ∀ r, extra' r = extra r + if r = q then 1 else 0) :
    Counted { t with
      ref := Function.update t.ref i (some d)
      cnt := Function.update t.cnt d 1
      obj := Function.update t.obj d (some q) } extra := by
  have hzero : refCount t.ref d = 0 := (h.free d).1 hd
  have hcount (e : δ) := refCount_update t.ref i (some d) e
  simp only [hi, reduceCtorEq, if_false, Nat.add_zero, Option.some.injEq] at hcount
  -- no other handle points to `d`
  have hreach : Table.reach { t with
      ref := Function.update t.ref i (some d)
      cnt := Function.update t.cnt d 1
      obj := Function.update t.obj d (some q) } = Function.update t.reach i (some q) := by
    funext j
    unfold Table.reach
    dsimp only
    rcases eq_or_ne j i with rfl | hj
    · rw [Function.update_self, Function.update_self, Option.bind_some, Function.update_self]
    · rw [Function.update_of_ne hj, Function.update_of_ne hj]
      cases hr : t.ref j with
      | none => rfl
      | some e =>
        have he : e ≠ d := fun he => refCount_eq_zero.1 hzero j (he ▸ hr)
        rw [Option.bind_some, Option.bind_some, Function.update_of_ne he]
  refine ⟨fun e => ?_, fun e he => ?_, fun r => ?_⟩
  · have := hcount e
    rcases eq_or_ne e d with rfl | he
    · simp only [Function.update_self, reduceCtorEq, false_iff]
      rw [if_pos rfl] at this
      omega
    · rw [if_neg (Ne.symm he)] at this
      simp only [Function.update_of_ne he, h.free e]
      omega
  · have := hcount e
    dsimp only at he ⊢
    rcases eq_or_ne e d with rfl | hne
    · rw [if_pos rfl, hzero] at this
      rw [Function.update_self, this]
      rfl
    · rw [if_neg (Ne.symm hne)] at this
      rw [Function.update_of_ne hne] at he ⊢
      rw [h.exact e he, this]
      simp
  · have hr := refCount_update t.reach i (some q) r
    have hi' : t.reach i = none := by rw [Table.reach, hi, Option.bind_none]
    have := h.enough r
    have := hextra r
    rw [hi'] at hr
    simp only [reduceCtorEq, if_false, Nat.add_zero, Option.some.injEq] at hr
    rw [hreach]
    by_cases hq : r = q
    · rw [if_pos hq.symm] at hr
      rw [if_pos hq] at this
      change _ ≤ t.objCnt r
      omega
    · rw [if_neg (Ne.symm hq)] at hr
      rw [if_neg hq] at this
      change _ ≤ t.objCnt r
      omega

/-- One more handle points to a descriptor in use, which counts it, as does its object. -/
theorem share {i : ι} {d : δ} {q : κ} (h : Counted t extra) (hi : t.ref i = none)
    (hd : t.obj d = some q) :
    Counted { t with
      ref := Function.update t.ref i (some d)
      cnt := Function.update t.cnt d (t.cnt d + 1)
      objCnt := Function.update t.objCnt q (t.objCnt q + 1) } extra := by
  have hcount (e : δ) := refCount_update t.ref i (some d) e
  simp only [hi, reduceCtorEq, if_false, Nat.add_zero, Option.some.injEq] at hcount
  have hreach : Table.reach { t with
      ref := Function.update t.ref i (some d)
      cnt := Function.update t.cnt d (t.cnt d + 1)
      objCnt := Function.update t.objCnt q (t.objCnt q + 1) } =
        Function.update t.reach i (some q) := by
    funext j
    unfold Table.reach
    dsimp only
    rcases eq_or_ne j i with rfl | hj
    · rw [Function.update_self, Function.update_self, Option.bind_some, hd]
    · rw [Function.update_of_ne hj, Function.update_of_ne hj]
  refine ⟨fun e => ?_, fun e he => ?_, fun r => ?_⟩
  · have := hcount e
    change t.obj e = none ↔ _
    rcases eq_or_ne e d with rfl | he
    · rw [hd]
      rw [if_pos rfl] at this
      simp only [reduceCtorEq, false_iff]
      omega
    · rw [if_neg (Ne.symm he)] at this
      simp only [h.free e]
      omega
  · have := hcount e
    have hex := h.exact e he
    dsimp only
    rcases eq_or_ne e d with rfl | hne
    · rw [if_pos rfl] at this
      rw [Function.update_self, this]
      push_cast
      omega
    · rw [if_neg (Ne.symm hne)] at this
      rw [Function.update_of_ne hne, this, hex]
      simp
  · have hr := refCount_update t.reach i (some q) r
    have hi' : t.reach i = none := by rw [Table.reach, hi, Option.bind_none]
    have := h.enough r
    rw [hi'] at hr
    simp only [reduceCtorEq, if_false, Nat.add_zero, Option.some.injEq] at hr
    rw [hreach]
    dsimp only
    rcases eq_or_ne r q with rfl | hq
    · rw [if_pos rfl] at hr
      rw [Function.update_self]
      omega
    · rw [if_neg (Ne.symm hq)] at hr
      rw [Function.update_of_ne hq]
      omega

/-- A handle is dropped: the object and the descriptor count one less, and the last handle frees the
descriptor. -/
theorem drop {i : ι} {d : δ} {q : κ} (h : Counted t extra) (hi : t.ref i = some d)
    (hd : t.obj d = some q) :
    Counted { t with
      ref := Function.update t.ref i none
      cnt := Function.update t.cnt d (t.cnt d - 1)
      obj := Function.update t.obj d (if t.cnt d - 1 = 0 then none else t.obj d)
      objCnt := Function.update t.objCnt q (t.objCnt q - 1) } extra := by
  have hcount (e : δ) := refCount_update t.ref i none e
  simp only [hi, reduceCtorEq, if_false, Nat.add_zero, Option.some.injEq] at hcount
  have hcnt := h.exact d (by rw [hd]; exact Option.some_ne_none q)
  have hlast := hcount d
  rw [if_pos rfl] at hlast
  have hzero : t.cnt d - 1 = 0 ↔ refCount (Function.update t.ref i none) d = 0 := by omega
  have hreach : Table.reach { t with
      ref := Function.update t.ref i none
      cnt := Function.update t.cnt d (t.cnt d - 1)
      obj := Function.update t.obj d (if t.cnt d - 1 = 0 then none else t.obj d)
      objCnt := Function.update t.objCnt q (t.objCnt q - 1) } =
        Function.update t.reach i none := by
    funext j
    unfold Table.reach
    dsimp only
    rcases eq_or_ne j i with rfl | hj
    · rw [Function.update_self, Function.update_self, Option.bind_none]
    · rw [Function.update_of_ne hj, Function.update_of_ne hj]
      cases hr : t.ref j with
      | none => rfl
      | some e =>
        rw [Option.bind_some, Option.bind_some]
        rcases eq_or_ne e d with rfl | he
        · have hpos : 0 < refCount (Function.update t.ref i none) e :=
            refCount_pos (i := j) (by rw [Function.update_of_ne hj, hr])
          rw [Function.update_self, if_neg (by omega)]
        · rw [Function.update_of_ne he]
  refine ⟨fun e => ?_, fun e he => ?_, fun r => ?_⟩
  · have := hcount e
    dsimp only
    rcases eq_or_ne e d with rfl | he
    · rw [Function.update_self, ← hzero]
      split_ifs with h0
      · simp [h0]
      · simp [h0, hd]
    · rw [if_neg (Ne.symm he)] at this
      rw [Function.update_of_ne he, h.free e]
      omega
  · have := hcount e
    dsimp only at he ⊢
    rcases eq_or_ne e d with rfl | hne
    · rw [Function.update_self]
      omega
    · rw [if_neg (Ne.symm hne)] at this
      rw [Function.update_of_ne hne] at he ⊢
      rw [h.exact e he]
      omega
  · have hr := refCount_update t.reach i none r
    have hi' : t.reach i = some q := by rw [Table.reach, hi, Option.bind_some, hd]
    have := h.enough r
    rw [hi'] at hr
    simp only [reduceCtorEq, if_false, Nat.add_zero, Option.some.injEq] at hr
    rw [hreach]
    dsimp only
    rcases eq_or_ne r q with rfl | hq
    · rw [if_pos rfl] at hr
      rw [Function.update_self]
      omega
    · rw [if_neg (Ne.symm hq)] at hr
      rw [Function.update_of_ne hq]
      omega

end Counted

end RefTable
