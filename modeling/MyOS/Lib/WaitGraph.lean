import Mathlib.Data.Fintype.EquivFin
import Mathlib.Order.WellFounded
import MyOS.Lib.Chain

/-!
# Wait-for graphs

Each node waits for at most one other, `f a`. The graph has no cycle exactly when every walk along
`f` is a finite chain; then the walk from `a` visits just what `a` reaches, within as many nodes
as there are. Waiting for a node that does not reach the waiter keeps the graph without cycles, and
so does ceasing to wait.
-/

namespace Pointer

open Relation

variable {α : Type*} {f : α → Option α}

/-- `b` is reached from `a` by following who waits for whom. -/
def Reaches (f : α → Option α) : α → α → Prop :=
  ReflTransGen fun x y => f x = some y

/-- No node waits for itself, directly or through others. -/
def Acyclic (f : α → Option α) : Prop :=
  ∀ a, ¬ TransGen (fun x y => f x = some y) a a

theorem reaches_of_mem_chain : ∀ {l : List α} {a b : α}, Chain f (some a) l → b ∈ l → Reaches f a b
  | c :: l, a, b, hc, hb => by
    obtain ⟨hac, h1⟩ := chain_cons.1 hc
    obtain rfl : a = c := by simpa using hac
    rcases List.mem_cons.1 hb with rfl | hb
    · exact .refl
    · rcases hf : f a with _ | d
      · rw [hf, chain_none] at h1
        simp [h1] at hb
      · rw [hf] at h1
        exact .head hf (reaches_of_mem_chain h1 hb)

/-- A chain from `a` holds all that `a` reaches. -/
theorem reaches_iff_mem_chain {l : List α} {a b : α} (hc : Chain f (some a) l) :
    Reaches f a b ↔ b ∈ l := by
  refine ⟨fun h => ?_, reaches_of_mem_chain hc⟩
  induction h with
  | refl =>
    cases l with
    | nil => simp at hc
    | cons c l => simp only [chain_cons, Option.some.injEq] at hc; simp [hc.1]
  | tail _ hbc ih =>
    obtain ⟨l₁, l₂, rfl⟩ := List.append_of_mem ih
    obtain ⟨-, h1⟩ := chain_cons.1 hc.suffix
    rw [hbc] at h1
    rcases l₂ with _ | ⟨d, l₂⟩
    · simp at h1
    · simp only [chain_cons, Option.some.injEq] at h1
      simp [h1.1]

theorem acyclic_of_chains (h : ∀ a, ∃ l, Chain f (some a) l) : Acyclic f := by
  intro a ha
  obtain ⟨b, hab, hba⟩ := TransGen.head'_iff.1 ha
  obtain ⟨l, hl⟩ := h a
  obtain ⟨lb, hlb⟩ := h b
  have ha' : a ∈ lb := (reaches_iff_mem_chain hlb).1 hba
  obtain ⟨l₁, l₂, rfl⟩ := List.append_of_mem ha'
  -- the chain from `a` starts with `a` and goes on with the chain from `b`, which meets `a` again
  have hac : Chain f (some a) (a :: (l₁ ++ a :: l₂)) := ⟨rfl, by rw [hab]; exact hlb⟩
  exact (List.nodup_cons.1 hac.nodup).1 (by simp)

theorem Acyclic.chain [Finite α] (h : Acyclic f) (a : α) : ∃ l, Chain f (some a) l := by
  have hwf : WellFounded fun y x => TransGen (fun x y => f x = some y) x y :=
    haveI : IsTrans α fun y x => TransGen (fun x y => f x = some y) x y :=
      ⟨fun _ _ _ h1 h2 => h2.trans h1⟩
    haveI : Std.Irrefl fun y x => TransGen (fun x y => f x = some y) x y := ⟨h⟩
    Finite.wellFounded_of_trans_of_irrefl _
  induction a using hwf.induction with
  | _ a ih =>
    rcases hf : f a with _ | b
    · exact ⟨[a], rfl, by simp [hf]⟩
    · obtain ⟨l, hl⟩ := ih b (.single hf)
      exact ⟨a :: l, rfl, by rw [hf]; exact hl⟩

theorem Acyclic.mono {g : α → Option α} (h : Acyclic f)
    (hg : ∀ a b, g a = some b → f a = some b) : Acyclic g :=
  fun a ha => h a (TransGen.mono hg _ _ ha)

/-- A node may come to wait for one that does not reach it. -/
theorem Acyclic.wait [Finite α] [DecidableEq α] (h : Acyclic f) {x y : α}
    (hy : ¬ Reaches f y x) : Acyclic (Function.update f x (some y)) := by
  obtain ⟨ly, hly⟩ := h.chain y
  have hxy : x ∉ ly := fun hm => hy ((reaches_iff_mem_chain hly).2 hm)
  refine acyclic_of_chains fun a => ?_
  obtain ⟨l, hl⟩ := h.chain a
  by_cases hm : x ∈ l
  · obtain ⟨l₁, l₂, rfl⟩ := List.append_of_mem hm
    have hn := hl.nodup
    obtain ⟨h', h1, rfl, h2⟩ := seg_append.1 hl
    have hx₁ : x ∉ l₁ := fun hx₁ => (List.nodup_append.1 hn).2.2 x hx₁ x (by simp) rfl
    refine ⟨l₁ ++ x :: ly, seg_append.2 ⟨some x, h1.update _ hx₁, rfl, ?_⟩⟩
    rw [Function.update_self]
    exact hly.update _ hxy
  · exact ⟨l, hl.update _ hm⟩

end Pointer
