import Mathlib.Data.List.Nodup
import Mathlib.Logic.Function.Basic
import Mathlib.Tactic.Common

/-!
# Tables with holes

A table of entries, some of which are unused. Where no key is in two of them the table is a map: an
unused entry that is filled adds a key, and one that is emptied takes its key away.
-/

namespace SlotMap

variable {ι K V : Type*}

/-- The entries in use are those of the map `m`, each in one place. -/
structure Represents (T : ι → Option (K × V)) (m : K → Option V) : Prop where
  unique : ∀ i j k v v', T i = some (k, v) → T j = some (k, v') → i = j
  holds : ∀ k v, m k = some v ↔ ∃ i, T i = some (k, v)

variable {T : ι → Option (K × V)} {m : K → Option V} {i j : ι} {k l : K} {v w : V}

theorem Represents.absent (h : Represents T m) : m k = none ↔ ∀ i v, T i ≠ some (k, v) := by
  constructor
  · intro hnone i v hi
    have := (h.holds k v).2 ⟨i, hi⟩
    rw [hnone] at this
    exact nomatch this
  · intro hall
    cases hk : m k with
    | none => rfl
    | some v =>
      obtain ⟨i, hi⟩ := (h.holds k v).1 hk
      exact absurd hi (hall i v)

/-- A list of entries with keys of their own. -/
theorem represents_list [DecidableEq K] {l : List (K × V)} (h : (l.map Prod.fst).Nodup) :
    Represents (fun i : ℕ => l[i]?) fun k => (l.find? fun x => x.1 = k).map Prod.snd := by
  have hkey {i : ℕ} {x : K × V} (hi : l[i]? = some x) : (l.map Prod.fst)[i]? = some x.1 := by
    rw [List.getElem?_map, hi, Option.map_some]
  have hunique (i j : ℕ) (x y : K × V) (hi : l[i]? = some x) (hj : l[j]? = some y)
      (he : x.1 = y.1) : i = j := by
    refine (List.getElem?_inj ?_ h).1 ((hkey hi).trans (he ▸ (hkey hj).symm))
    exact (List.getElem?_eq_some_iff.1 (hkey hi)).1
  constructor
  · intro i j k v v' hi hj
    exact hunique i j _ _ hi hj rfl
  · intro k v
    rw [Option.map_eq_some_iff]
    constructor
    · rintro ⟨⟨k', v'⟩, hfind, rfl⟩
      obtain rfl : k' = k := by simpa using List.find?_some hfind
      exact List.mem_iff_getElem?.1 (List.mem_of_find?_eq_some hfind)
    · rintro ⟨i, hi⟩
      have hmem : (k, v) ∈ l := List.mem_iff_getElem?.2 ⟨i, hi⟩
      have hsome : (l.find? fun x => x.1 = k).isSome :=
        List.find?_isSome.2 ⟨(k, v), hmem, decide_eq_true rfl⟩
      obtain ⟨x, hfind⟩ := Option.isSome_iff_exists.1 hsome
      have hx : x.1 = k := by simpa using List.find?_some hfind
      obtain ⟨j, hj⟩ := List.mem_iff_getElem?.1 (List.mem_of_find?_eq_some hfind)
      obtain rfl := hunique j i x (k, v) hj hi hx
      exact ⟨x, hfind, congrArg Prod.snd (Option.some.inj (hj.symm.trans hi))⟩

section Update

variable [DecidableEq ι]

/-- The entries of a key are the same where neither the old nor the new entry is of it. -/
theorem update_other {x : Option (K × V)} (hold : ∀ w, T i ≠ some (l, w))
    (hnew : ∀ w, x ≠ some (l, w)) : Function.update T i x j = some (l, w) ↔ T j = some (l, w) := by
  rcases eq_or_ne j i with rfl | hne
  · rw [Function.update_self]
    exact iff_of_false (hnew w) (hold w)
  · rw [Function.update_of_ne hne]

theorem fill_self (hk : ∀ j w, T j ≠ some (k, w)) :
    Function.update T i (some (k, v)) j = some (k, w) ↔ j = i ∧ v = w := by
  rcases eq_or_ne j i with rfl | hne
  · rw [Function.update_self, Option.some.injEq, Prod.mk.injEq, and_iff_right rfl,
      and_iff_right rfl]
  · rw [Function.update_of_ne hne]
    exact iff_of_false (hk j w) fun he => hne he.1

variable [DecidableEq K]

theorem Represents.fill (h : Represents T m) (hi : T i = none) (hk : m k = none) :
    Represents (Function.update T i (some (k, v))) (Function.update m k (some v)) := by
  have hother {l : K} (hne : l ≠ k) (j : ι) (w : V) :
      Function.update T i (some (k, v)) j = some (l, w) ↔ T j = some (l, w) :=
    update_other (fun w => by rw [hi]; exact nofun) fun w he =>
      hne (Prod.mk.inj (Option.some.inj he)).1.symm
  have hself := fun j w => @fill_self ι K V T i j k v w _ (h.absent.1 hk)
  constructor
  · intro j j' l w w' hj hj'
    rcases eq_or_ne l k with rfl | hne
    · exact ((hself j w).1 hj).1.trans ((hself j' w').1 hj').1.symm
    · exact h.unique j j' l w w' ((hother hne j w).1 hj) ((hother hne j' w').1 hj')
  · intro l w
    rcases eq_or_ne l k with rfl | hne
    · rw [Function.update_self, Option.some.injEq, exists_congr fun j => hself j w]
      exact ⟨fun hw => ⟨i, rfl, hw⟩, fun ⟨_, _, hw⟩ => hw⟩
    · rw [Function.update_of_ne hne, h.holds]
      exact exists_congr fun j => (hother hne j w).symm

theorem Represents.empty (h : Represents T m) (hi : T i = some (k, v)) :
    Represents (Function.update T i none) (Function.update m k none) := by
  have hother {l : K} (hne : l ≠ k) (j : ι) (w : V) :
      Function.update T i none j = some (l, w) ↔ T j = some (l, w) :=
    update_other (fun w he => hne (Prod.mk.inj (Option.some.inj (hi.symm.trans he))).1.symm)
      fun w => nofun
  have hself (j : ι) (w : V) : Function.update T i none j ≠ some (k, w) := by
    rcases eq_or_ne j i with rfl | hne
    · rw [Function.update_self]
      exact nofun
    · rw [Function.update_of_ne hne]
      exact fun hj => hne (h.unique j i k w v hj hi)
  constructor
  · intro j j' l w w' hj hj'
    rcases eq_or_ne l k with rfl | hne
    · exact absurd hj (hself j w)
    · exact h.unique j j' l w w' ((hother hne j w).1 hj) ((hother hne j' w').1 hj')
  · intro l w
    rcases eq_or_ne l k with rfl | hne
    · rw [Function.update_self]
      exact iff_of_false nofun fun ⟨j, hj⟩ => hself j w hj
    · rw [Function.update_of_ne hne, h.holds]
      exact exists_congr fun j => (hother hne j w).symm

end Update

end SlotMap
