import MyOS.Lib.Memory

/-!
# Memory written block by block

A patch is a block with the bytes it gets. Of the patches over an address the last one counts; where
they share no address each keeps its own bytes. `memcpy` writes a patch whatever its blocks share:
each byte is the one it finds when it gets there.
-/

namespace Memory

structure Patch where
  start : Addr
  len : ℕ
  bytes : ℕ → Byte

namespace Patch

abbrev Covers (p : Patch) (x : Addr) : Prop := Within x p.start p.len

/-- The byte it puts at an address it covers. -/
def byteAt (p : Patch) (x : Addr) : Byte := p.bytes (x - p.start).toNat

def apply (mem : Mem) (p : Patch) : Mem := poke mem p.start p.len p.bytes

theorem apply_eq (mem : Mem) (p : Patch) (x : Addr) :
    p.apply mem x = if p.Covers x then p.byteAt x else mem x := rfl

end Patch

/-- The memory after the patches, in order. -/
def patched (mem : Mem) (l : List Patch) : Mem := l.foldl Patch.apply mem

/-- The last patch over an address. -/
def lastOver (x : Addr) : List Patch → Option Patch
  | [] => none
  | p :: l => (lastOver x l).or (if p.Covers x then some p else none)

@[simp] theorem patched_nil (mem : Mem) : patched mem [] = mem := rfl

@[simp] theorem patched_cons (mem : Mem) (p : Patch) (l : List Patch) :
    patched mem (p :: l) = patched (p.apply mem) l := rfl

theorem patched_apply (x : Addr) : ∀ (mem : Mem) (l : List Patch),
    patched mem l x = ((lastOver x l).map fun p => p.byteAt x).getD (mem x)
  | _, [] => rfl
  | mem, p :: l => by
    rw [patched_cons, patched_apply x _ l, lastOver, Patch.apply_eq]
    cases lastOver x l with
    | some q => rfl
    | none =>
      rw [Option.none_or]
      split_ifs <;> rfl

theorem lastOver_eq_none {x : Addr} : ∀ {l : List Patch},
    lastOver x l = none ↔ ∀ p ∈ l, ¬ p.Covers x
  | [] => by simp [lastOver]
  | p :: l => by
    rw [lastOver, Option.or_eq_none_iff, lastOver_eq_none]
    simp [and_comm]

theorem lastOver_some {x : Addr} {p : Patch} : ∀ {l : List Patch},
    lastOver x l = some p → p ∈ l ∧ p.Covers x
  | [], h => nomatch h
  | q :: l, h => by
    rw [lastOver, Option.or_eq_some_iff] at h
    rcases h with h | ⟨-, h⟩
    · exact ⟨List.mem_cons_of_mem _ (lastOver_some h).1, (lastOver_some h).2⟩
    · split_ifs at h with hq
      obtain rfl := Option.some.inj h
      exact ⟨List.mem_cons_self, hq⟩

/-- The patches leave the rest of the memory, -/
theorem patched_of_not_covers {mem : Mem} {l : List Patch} {x : Addr}
    (h : ∀ p ∈ l, ¬ p.Covers x) : patched mem l x = mem x := by
  rw [patched_apply, lastOver_eq_none.2 h]
  rfl

/-- an address keeps its byte just when the last patch over it puts the same one there, -/
theorem patched_eq_self_iff {mem : Mem} {l : List Patch} {x : Addr} :
    patched mem l x = mem x ↔ ∀ p, lastOver x l = some p → p.byteAt x = mem x := by
  rw [patched_apply]
  cases lastOver x l with
  | none => simp
  | some p => simp

/-- and where no two of them share an address each stays as it is. -/
theorem lastOver_of_apart {x : Addr} {p : Patch} : ∀ {l : List Patch},
    l.Pairwise (fun p q => Apart p.start p.len q.start q.len) → p ∈ l → p.Covers x →
      lastOver x l = some p
  | q :: l, hl, hp, hx => by
    rw [List.pairwise_cons] at hl
    rcases List.mem_cons.1 hp with rfl | hp
    · rw [lastOver, lastOver_eq_none.2 fun q hq hc => hl.1 q hq x hx hc, if_pos hx]
      rfl
    · rw [lastOver, lastOver_of_apart hl.2 hp hx]
      rfl

theorem patched_of_apart {mem : Mem} {l : List Patch} {x : Addr} {p : Patch}
    (hl : l.Pairwise fun p q => Apart p.start p.len q.start q.len) (hp : p ∈ l)
    (hx : p.Covers x) : patched mem l x = p.byteAt x := by
  rw [patched_apply, lastOver_of_apart hl hp hx]
  rfl

/-- A copy, with each byte as it is found. -/
def copyPatch (mem : Mem) (dst src : Addr) (n : ℕ) : Patch :=
  ⟨dst, n, fun i => memcpy mem dst src i (src + BitVec.ofNat 32 i)⟩

theorem covers_copyPatch {mem : Mem} {dst src x : Addr} {n : ℕ} :
    (copyPatch mem dst src n).Covers x ↔ Within x dst n := .rfl

theorem copyPatch_apply : ∀ (n : ℕ) (mem : Mem) (dst src : Addr), n ≤ 2 ^ 32 →
    (copyPatch mem dst src n).apply mem = memcpy mem dst src n
  | 0, mem, dst, src, _ => by
    funext x
    exact poke_of_not_within (Nat.not_lt_zero _)
  | n + 1, mem, dst, src, hn => by
    rw [memcpy, ← copyPatch_apply n _ (dst + 1) (src + 1) (by omega)]
    funext x
    by_cases hx : Within x (dst + 1) n
    · have hi : (x - dst).toNat = (x - (dst + 1)).toNat + 1 := by
        unfold Within at hx
        bv_omega
      have hsrc : src + BitVec.ofNat 32 ((x - (dst + 1)).toNat + 1) =
          src + 1 + BitVec.ofNat 32 (x - (dst + 1)).toNat := by
        rw [BitVec.ofNat_add, BitVec.add_assoc, BitVec.add_comm 1]
        rfl
      calc (copyPatch mem dst src (n + 1)).apply mem x
          = memcpy mem dst src (x - dst).toNat (src + BitVec.ofNat 32 (x - dst).toNat) :=
            if_pos ((within_succ hn).2 (.inr hx))
        _ = memcpy (Function.update mem dst (mem src)) (dst + 1) (src + 1) (x - (dst + 1)).toNat
            (src + 1 + BitVec.ofNat 32 (x - (dst + 1)).toNat) := by rw [hi, hsrc, memcpy]
        _ = _ := (if_pos hx).symm
    · rw [Patch.apply_eq _ (copyPatch _ _ _ n), if_neg (mt covers_copyPatch.1 hx)]
      rcases eq_or_ne x dst with rfl | hxd
      · have h0 : (x - x).toNat = 0 := by simp
        rw [Patch.apply_eq, if_pos (covers_copyPatch.2 ((within_succ hn).2 (.inl rfl))),
          Function.update_self]
        unfold Patch.byteAt copyPatch
        dsimp only
        rw [h0, memcpy, BitVec.add_zero]
      · rw [Patch.apply_eq,
          if_neg fun hw => (within_succ hn).1 (covers_copyPatch.1 hw) |>.elim hxd hx,
          Function.update_of_ne hxd]

theorem memcpy_of_not_within {mem : Mem} {dst src x : Addr} {n : ℕ} (hn : n ≤ 2 ^ 32)
    (hx : ¬ Within x dst n) : memcpy mem dst src n x = mem x := by
  rw [← copyPatch_apply n mem dst src hn, Patch.apply_eq, if_neg (mt covers_copyPatch.1 hx)]

/-- Where the blocks share no address the bytes are those of the source. -/
theorem copyPatch_bytes {mem : Mem} {dst src : Addr} {n i : ℕ} (hn : n ≤ 2 ^ 32) (hi : i < n)
    (h : Apart dst n src n) :
    (copyPatch mem dst src n).bytes i = mem (src + BitVec.ofNat 32 i) := by
  have hsub : ∀ x, Within x dst i → Within x dst n := fun x hx => Nat.lt_trans hx hi
  have happart : Apart dst i src i := fun x hx hx' => h x (hsub x hx) (Nat.lt_trans hx' hi)
  unfold copyPatch
  dsimp only
  rw [memcpy_eq_poke i mem dst src (by omega) happart]
  exact poke_of_not_within fun hx => h _ (hsub _ hx) (within_add_ofNat src hi hn)

end Memory
