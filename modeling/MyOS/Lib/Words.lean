import Mathlib.Data.List.Basic

/-!
# Words

The maximal runs of a list without separators, each with the position it starts at.
-/

namespace Words

variable {α : Type*} {sep : α → Bool} {c : α} {l w : List α} {p : ℕ}

/-- The pieces of a list, with one separator behind each but the last, from position `p` on. -/
def placed : ℕ → List (List α) → List (ℕ × List α)
  | _, [] => []
  | p, w :: ws => (p, w) :: placed (p + w.length + 1) ws

/-- The words of `l`, which starts at position `p`. -/
def words (sep : α → Bool) (p : ℕ) (l : List α) : List (ℕ × List α) :=
  (placed p (l.splitOnP sep)).filter fun r => !r.2.isEmpty

/-- The word `w` at `p`, if it is one. -/
def single (p : ℕ) (w : List α) : List (ℕ × List α) := if w = [] then [] else [(p, w)]

theorem filter_single (p : ℕ) (w : List α) :
    [(p, w)].filter (fun r => !r.2.isEmpty) = single p w := by
  cases w <;> rfl

theorem words_of_forall (h : ∀ c ∈ w, sep c = false) : words sep p w = single p w := by
  rw [words, List.splitOnP_eq_singleton h]
  exact filter_single p w

theorem words_append_cons (h : ∀ c ∈ w, sep c = false) (hc : sep c = true) :
    words sep p (w ++ c :: l) = single p w ++ words sep (p + w.length + 1) l := by
  rw [words, List.splitOnP_append_cons_of_forall_mem h c hc, placed, words, ← filter_single,
    ← List.filter_append]
  rfl

theorem single_length_le (p : ℕ) (w : List α) : (single p w).length ≤ w.length := by
  cases w with
  | nil => exact Nat.le_refl _
  | cons c w => exact Nat.succ_le_succ (Nat.zero_le _)

theorem mem_single {r : ℕ × List α} : r ∈ single p w ↔ w ≠ [] ∧ r = (p, w) := by
  cases w <;> simp [single]

/-- Induction along the separators. -/
theorem word_induction (sep : α → Bool) {P : List α → Prop}
    (last : ∀ w, (∀ c ∈ w, sep c = false) → P w)
    (next : ∀ w c l, (∀ c ∈ w, sep c = false) → sep c = true → P l → P (w ++ c :: l))
    (l : List α) : P l := by
  -- `w` is the word the list starts in
  have hfrom (l : List α) : ∀ w, (∀ c ∈ w, sep c = false) → P (w ++ l) := by
    induction l with
    | nil =>
      intro w hw
      rw [List.append_nil]
      exact last w hw
    | cons c l ih =>
      intro w hw
      cases hc : sep c with
      | true => exact next w c l hw hc (ih [] nofun)
      | false =>
        have := ih (w ++ [c]) (List.forall_mem_append.2 ⟨hw, by simpa using hc⟩)
        rwa [List.append_assoc] at this
  exact hfrom l [] nofun

/-- A word lies in the list, and is not empty. -/
theorem of_mem_words : ∀ {p : ℕ} {r : ℕ × List α}, r ∈ words sep p l →
    r.2 ≠ [] ∧ r.1 + r.2.length ≤ p + l.length ∧ ∀ c ∈ r.2, c ∈ l := by
  induction l using word_induction sep with
  | last w h =>
    intro p r hr
    rw [words_of_forall h, mem_single] at hr
    obtain ⟨hne, rfl⟩ := hr
    exact ⟨hne, Nat.le_refl _, fun c hc => hc⟩
  | next w c l hw hc ih =>
    intro p r hr
    rw [words_append_cons hw hc, List.mem_append, mem_single] at hr
    rw [List.length_append, List.length_cons]
    rcases hr with ⟨hne, rfl⟩ | hr
    · exact ⟨hne, by simp, fun c hc => List.mem_append_left _ hc⟩
    · obtain ⟨hne, hle, hmem⟩ := ih hr
      exact ⟨hne, by omega, fun c hc =>
        List.mem_append_right _ (List.mem_cons_of_mem _ (hmem c hc))⟩

theorem single_ne_nil_iff : single p w ≠ [] ↔ w ≠ [] := by
  cases w <;> simp [single]

/-- There is a word if there is something else than separators. -/
theorem words_ne_nil_iff : ∀ {p : ℕ}, words sep p l ≠ [] ↔ ∃ c ∈ l, sep c = false := by
  induction l using word_induction sep with
  | last w h =>
    intro p
    rw [words_of_forall h, single_ne_nil_iff]
    constructor
    · intro hne
      obtain ⟨c, w, rfl⟩ := List.exists_cons_of_ne_nil hne
      exact ⟨c, List.mem_cons_self, h c List.mem_cons_self⟩
    · rintro ⟨c, hc, -⟩ rfl
      exact nomatch hc
  | next w c l hw hc ih =>
    intro p
    rw [words_append_cons hw hc, Ne, List.append_eq_nil_iff, not_and_or, ← Ne, single_ne_nil_iff,
      ← Ne, ih]
    constructor
    · rintro (hne | ⟨c', hmem, hsep⟩)
      · obtain ⟨c', w, rfl⟩ := List.exists_cons_of_ne_nil hne
        exact ⟨c', List.mem_cons_self, hw c' List.mem_cons_self⟩
      · exact ⟨c', List.mem_append_right _ (List.mem_cons_of_mem _ hmem), hsep⟩
    · rintro ⟨c', hmem, hsep⟩
      rcases List.mem_append.1 hmem with hmem | hmem
      · exact .inl (List.ne_nil_of_mem hmem)
      · rcases List.mem_cons.1 hmem with rfl | hmem
        · rw [hc] at hsep
          cases hsep
        · exact .inr ⟨c', hmem, hsep⟩

/-- Between two words there is a separator. -/
theorem words_length_le : ∀ {p : ℕ}, 2 * (words sep p l).length ≤ l.length + 1 := by
  induction l using word_induction sep with
  | last w h =>
    intro p
    rw [words_of_forall h]
    cases w with
    | nil => simp [single]
    | cons c w => simp [single]
  | next w c l hw hc ih =>
    intro p
    have := ih (p := p + w.length + 1)
    rw [words_append_cons hw hc]
    cases w with
    | nil =>
      simp only [single, ite_true, List.nil_append, List.length_cons]
      omega
    | cons c' w =>
      simp only [single, reduceCtorEq, ite_false, List.length_append, List.length_cons,
        List.length_nil]
      simp only [List.length_cons] at this
      omega

end Words
