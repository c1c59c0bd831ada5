import MyOS.Lib.Memory

/-!
# A stack of words in memory

A stack grows downwards: a word that is pushed stands in front of the words that are there. So what
has been pushed is found in reverse, and the bytes behind it are as they were.
-/

namespace Memory

/-- The words from `a` on. -/
def WordsAt (mem : Mem) : Addr → List (BitVec 32) → Prop
  | _, [] => True
  | a, v :: vs => load32 mem a = v ∧ WordsAt mem (a + 4) vs

instance decidableWordsAt (mem : Mem) : ∀ (a : Addr) (vs : List (BitVec 32)),
    Decidable (WordsAt mem a vs)
  | _, [] => isTrue trivial
  | a, _ :: vs =>
    have := decidableWordsAt mem (a + 4) vs
    inferInstanceAs (Decidable (_ ∧ _))

/-- Each word is pushed in front of the ones before it. -/
def pushAll (mem : Mem) (esp : Addr) : List (BitVec 32) → Mem
  | [] => mem
  | v :: vs => pushAll (store32 mem (esp - 4) v) (esp - 4) vs

variable {mem mem' : Mem} {a b esp x : Addr} {v : BitVec 32} {vs ws : List (BitVec 32)}

@[simp] theorem wordsAt_nil : WordsAt mem a [] ↔ True := Iff.rfl

@[simp] theorem wordsAt_cons : WordsAt mem a (v :: vs) ↔
    load32 mem a = v ∧ WordsAt mem (a + 4) vs := Iff.rfl

theorem ofNat_four_succ (n : ℕ) : BitVec.ofNat 32 (4 * (n + 1)) = 4 + BitVec.ofNat 32 (4 * n) := by
  rw [Nat.mul_succ, Nat.add_comm, BitVec.ofNat_add]
  rfl

/-- Only the bytes of the words count. -/
theorem WordsAt.congr : ∀ {vs : List (BitVec 32)} {a : Addr}, 4 * vs.length ≤ 2 ^ 32 →
    (∀ x, Within x a (4 * vs.length) → mem' x = mem x) → WordsAt mem a vs → WordsAt mem' a vs
  | [], _, _, _, _ => trivial
  | v :: vs, a, hn, h, hw => by
    rw [List.length_cons] at hn h
    refine ⟨?_, WordsAt.congr (by omega) (fun x hx => h x ?_) hw.2⟩
    · rw [← hw.1]
      exact load32_congr fun i hi => h _ (within_add_ofNat a (by omega) hn)
    · rw [show a + 4 = a + BitVec.ofNat 32 4 from rfl, within_add (by omega)] at hx
      unfold Within
      omega

theorem load32_store32_of_apart (h : Apart a 4 b 4) : load32 (store32 mem b v) a = load32 mem a :=
  load32_congr fun _ hi => poke_of_not_within (h _ (within_add_ofNat a hi (by decide)))

theorem pushAll_append : ∀ {vs : List (BitVec 32)} {mem : Mem} {esp : Addr},
    pushAll mem esp (vs ++ ws) =
      pushAll (pushAll mem esp vs) (esp - BitVec.ofNat 32 (4 * vs.length)) ws
  | [], mem, esp => by
    rw [List.nil_append, pushAll, List.length_nil]
    exact congrArg (pushAll mem · ws) (BitVec.sub_zero esp).symm
  | v :: vs, mem, esp => by
    rw [List.cons_append, pushAll, pushAll_append, pushAll, List.length_cons, ofNat_four_succ,
      BitVec.sub_sub]

/-- The bytes behind the stack pointer are as they were, and so are those below the words pushed. -/
theorem pushAll_of_not_within : ∀ {vs : List (BitVec 32)} {mem : Mem} {esp : Addr},
    4 * vs.length ≤ 2 ^ 32 →
      ¬ Within x (esp - BitVec.ofNat 32 (4 * vs.length)) (4 * vs.length) →
        pushAll mem esp vs x = mem x
  | [], _, _, _, _ => rfl
  | v :: vs, mem, esp, hn, hx => by
    rw [List.length_cons] at hn hx
    have hbase : esp - BitVec.ofNat 32 (4 * (vs.length + 1)) =
        esp - 4 - BitVec.ofNat 32 (4 * vs.length) := by
      rw [BitVec.sub_sub, ofNat_four_succ]
    rw [hbase] at hx
    have htop : esp - 4 =
        esp - 4 - BitVec.ofNat 32 (4 * vs.length) + BitVec.ofNat 32 (4 * vs.length) :=
      (BitVec.sub_add_cancel _ _).symm
    rw [pushAll, pushAll_of_not_within (by omega) fun h => hx ?_]
    · refine poke_of_not_within fun h => hx ?_
      rw [htop, within_add (by omega)] at h
      exact h.2
    · unfold Within at h ⊢
      omega

/-- What has been pushed stands in front of what was there, in reverse. -/
theorem pushAll_wordsAt : ∀ (vs ws : List (BitVec 32)) (mem : Mem) (esp : Addr),
    4 * (vs.length + ws.length) ≤ 2 ^ 32 → WordsAt mem esp ws →
      WordsAt (pushAll mem esp vs) (esp - BitVec.ofNat 32 (4 * vs.length)) (vs.reverse ++ ws)
  | [], ws, mem, esp, _, h => by
    rw [List.length_nil]
    rwa [pushAll, show esp - BitVec.ofNat 32 (4 * 0) = esp from BitVec.sub_zero esp]
  | v :: vs, ws, mem, esp, hn, h => by
    rw [List.length_cons] at hn
    have hstored : WordsAt (store32 mem (esp - 4) v) (esp - 4) (v :: ws) := by
      refine ⟨load32_store32 mem _ v, ?_⟩
      rw [BitVec.sub_add_cancel]
      refine h.congr (by omega) fun x hx => poke_of_not_within fun hx' => ?_
      unfold Within at hx hx'
      have : 4 * ws.length + 4 ≤ 2 ^ 32 := by omega
      bv_omega
    have hrec := pushAll_wordsAt vs (v :: ws) _ _ (by rw [List.length_cons]; omega) hstored
    rw [pushAll, List.reverse_cons, List.append_assoc, List.length_cons]
    have hbase : esp - BitVec.ofNat 32 (4 * (vs.length + 1)) =
        esp - 4 - BitVec.ofNat 32 (4 * vs.length) := by
      rw [BitVec.sub_sub, ofNat_four_succ]
    rw [hbase]
    exact hrec

theorem wordsAt_append : ∀ {vs : List (BitVec 32)} {a : Addr}, WordsAt mem a (vs ++ ws) ↔
    WordsAt mem a vs ∧ WordsAt mem (a + BitVec.ofNat 32 (4 * vs.length)) ws
  | [], a => by
    rw [List.nil_append, List.length_nil, show a + BitVec.ofNat 32 (4 * 0) = a from
      BitVec.add_zero a, wordsAt_nil, true_and]
  | v :: vs, a => by
    rw [List.cons_append, wordsAt_cons, wordsAt_append, wordsAt_cons, and_assoc, List.length_cons,
      ofNat_four_succ, BitVec.add_assoc]

theorem WordsAt.load : ∀ {vs : List (BitVec 32)} {a : Addr}, WordsAt mem a vs →
    ∀ {i : ℕ} (hi : i < vs.length), load32 mem (a + BitVec.ofNat 32 (4 * i)) = vs[i]
  | v :: vs, a, h, 0, _ => by
    rw [show a + BitVec.ofNat 32 (4 * 0) = a from BitVec.add_zero a]
    exact h.1
  | v :: vs, a, h, i + 1, hi => by
    rw [ofNat_four_succ, ← BitVec.add_assoc]
    exact h.2.load (Nat.lt_of_succ_lt_succ hi)

/-- A word of them is stored. -/
theorem WordsAt.store : ∀ {vs : List (BitVec 32)} {a : Addr}, 4 * vs.length ≤ 2 ^ 32 →
    WordsAt mem a vs → ∀ {i : ℕ}, i < vs.length →
      WordsAt (store32 mem (a + BitVec.ofNat 32 (4 * i)) v) a (vs.set i v)
  | w :: vs, a, hn, h, 0, _ => by
    rw [List.length_cons] at hn
    rw [show a + BitVec.ofNat 32 (4 * 0) = a from BitVec.add_zero a]
    refine ⟨load32_store32 mem a v, h.2.congr (by omega) fun x hx => ?_⟩
    refine poke_of_not_within fun hx' => ?_
    unfold Within at hx hx'
    bv_omega
  | w :: vs, a, hn, h, i + 1, hi => by
    rw [List.length_cons] at hn hi
    have hrest := h.2.store (by omega) (Nat.lt_of_succ_lt_succ hi)
    rw [ofNat_four_succ, ← BitVec.add_assoc]
    refine ⟨?_, hrest⟩
    rw [← h.1]
    refine load32_store32_of_apart fun x hx hx' => ?_
    unfold Within at hx hx'
    have hi' : 4 * i < 2 ^ 32 := by omega
    bv_omega

/-! ## Words stored upwards -/

/-- Each word is stored behind the ones before it. -/
def storeAll (mem : Mem) (a : Addr) : List (BitVec 32) → Mem
  | [] => mem
  | v :: vs => storeAll (store32 mem a v) (a + 4) vs

theorem storeAll_of_not_within : ∀ (vs : List (BitVec 32)) {mem : Mem} {a : Addr},
    4 * vs.length ≤ 2 ^ 32 → ¬ Within x a (4 * vs.length) → storeAll mem a vs x = mem x
  | [], _, _, _, _ => rfl
  | v :: vs, mem, a, hn, hx => by
    rw [List.length_cons] at hn hx
    have hrest : ¬ Within x (a + 4) (4 * vs.length) := by
      rw [show a + 4 = a + BitVec.ofNat 32 4 from rfl, within_add (by omega)]
      unfold Within at hx
      omega
    have hfirst : ¬ Within x a 4 := fun h => hx (Nat.lt_of_lt_of_le h (by omega))
    rw [storeAll, storeAll_of_not_within vs (by omega) hrest]
    exact poke_of_not_within hfirst

theorem storeAll_wordsAt : ∀ (vs : List (BitVec 32)) {mem : Mem} {a : Addr},
    4 * vs.length ≤ 2 ^ 32 → WordsAt (storeAll mem a vs) a vs
  | [], _, _, _ => trivial
  | v :: vs, mem, a, hn => by
    rw [List.length_cons] at hn
    refine ⟨?_, storeAll_wordsAt vs (by omega)⟩
    refine (load32_congr fun i hi => ?_).trans (load32_store32 mem a v)
    refine storeAll_of_not_within vs (by omega) fun h => ?_
    unfold Within at h
    bv_omega

end Memory
