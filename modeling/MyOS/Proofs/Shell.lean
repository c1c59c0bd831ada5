import MyOS.Shell
import MyOS.Lib.Words
import MyOS.Proofs.ArgVector
import MyOS.Proofs.Vsprintf

/-!
# The words of a line

The loop goes over the line word by word: it passes over the characters of a word, puts a null in
place of the blank behind it and stores where it started. A line of blanks has no word, and the path
that is opened is then the null pointer.
-/

namespace MyOS

open Memory Block Words

def isBlank (c : Byte) : Bool := c = ascii ' '

variable {t : ShellScan} {n : ℕ} {l w : List Byte} {c : Byte}

/-! ## Strings in parts -/

theorem CString.left {f : Bytes} {p : ℕ} (h : CString f p (w ++ l)) :
    ∀ j (hj : j < w.length), f (p + j) = w[j] := by
  intro j hj
  rw [h.chars j (by rw [List.length_append]; omega), List.getElem_append_left hj]

theorem CString.right {f : Bytes} {p : ℕ} (h : CString f p (w ++ l)) :
    CString f (p + w.length) l := by
  constructor
  · intro j hj
    have := h.chars (w.length + j) (by rw [List.length_append]; omega)
    rw [List.getElem_append_right (by omega)] at this
    simpa [Nat.add_assoc] using this
  · have := h.null
    rwa [List.length_append, ← Nat.add_assoc] at this

theorem CString.tail {f : Bytes} {p : ℕ} (h : CString f p (c :: l)) :
    f p = c ∧ CString f (p + 1) l :=
  ⟨h.chars 0 (Nat.zero_lt_succ _), CString.right (w := [c]) h⟩

/-! ## A word -/

/-- A character of a word. -/
theorem shellTurn_char (hc : isBlank (t.rdbuf t.p) = false) (h0 : t.rdbuf t.p ≠ 0) :
    shellTurn t = .ok { t with p := t.p + 1, s := if t.word = false then t.p else t.s,
                               word := true } := by
  obtain ⟨rdbuf, argv, p, s, word⟩ := t
  have hblank : rdbuf p ≠ ascii ' ' := of_decide_eq_false hc
  have hnull : rdbuf p ≠ 0#8 := h0
  cases word <;> simp [shellTurn, hblank, hnull]

/-- What ends a word, or stands where there is none. -/
theorem shellTurn_end (hc : isBlank (t.rdbuf t.p) = true ∨ t.rdbuf t.p = 0)
    (hroom : t.argv.length < procOriginStack) : shellTurn t = .ok
      { t with rdbuf := if t.word then put t.rdbuf t.p 0 else t.rdbuf,
               argv := t.argv ++ if t.word then [some t.s] else [], p := t.p + 1,
               word := false } := by
  obtain ⟨rdbuf, argv, p, s, word⟩ := t
  have hend : rdbuf p = ascii ' ' ∨ rdbuf p = 0 := hc.imp_left of_decide_eq_true
  dsimp only at hroom ⊢
  cases word with
  | false => rcases hend with h | h <;> simp [shellTurn, h]
  | true => rcases hend with h | h <;> simp [shellTurn, ShellScan.store, hroom, h]

/-- The turns over the characters of a word. -/
theorem shellLoop_word : ∀ {w : List Byte} {t : ShellScan},
    (∀ c ∈ w, isBlank c = false ∧ c ≠ 0) → (∀ j (hj : j < w.length), t.rdbuf (t.p + j) = w[j]) →
      t.p + w.length < rdbufSize → shellLoop (n + w.length) t =
        shellLoop n { t with p := t.p + w.length,
                             s := if w ≠ [] ∧ t.word = false then t.p else t.s,
                             word := t.word || !w.isEmpty }
  | [], t, _, _, _ => by simp
  | c :: w, t, hw, hchars, hp => by
    obtain ⟨⟨hc, h0⟩, hw⟩ := List.forall_mem_cons.1 hw
    have hch : t.rdbuf t.p = c := hchars 0 (Nat.zero_lt_succ _)
    rw [List.length_cons] at hp
    rw [List.length_cons, ← Nat.add_assoc, shellLoop, if_neg (by omega),
      shellTurn_char (hch ▸ hc) (hch ▸ h0), ok_bind, if_pos (hch ▸ h0), shellLoop_word hw]
    · simp [Nat.add_assoc, Nat.add_comm 1]
    · intro j hj
      have := hchars (j + 1) (Nat.succ_lt_succ hj)
      simpa [Nat.add_assoc, Nat.add_comm 1] using this
    · dsimp only
      omega

/-- A word and what ends it. -/
theorem shellLoop_end (hw : ∀ c ∈ w, isBlank c = false ∧ c ≠ 0) (ht : t.word = false)
    (hchars : ∀ j (hj : j < w.length), t.rdbuf (t.p + j) = w[j])
    (hc : t.rdbuf (t.p + w.length) = c) (hend : isBlank c = true ∨ c = 0)
    (hp : t.p + w.length < rdbufSize) (hroom : t.argv.length < procOriginStack) :
    ∃ t', (∀ n, shellLoop (n + 1 + w.length) t = if c ≠ 0 then shellLoop n t' else .ok t') ∧
      t'.rdbuf = (if w = [] then t.rdbuf else put t.rdbuf (t.p + w.length) 0) ∧
      t'.argv = t.argv ++ (single t.p w).map (fun r => some r.1) ∧ t'.p = t.p + w.length + 1 ∧
      t'.word = false := by
  have hturn := shellTurn_end
    (t := { t with p := t.p + w.length, s := if w ≠ [] ∧ t.word = false then t.p else t.s,
                   word := t.word || !w.isEmpty }) (by simpa [hc] using hend) hroom
  refine ⟨_, fun n => by
    rw [shellLoop_word hw hchars hp, shellLoop, if_neg (not_le.2 hp), hturn, ok_bind, ← hc], ?_⟩
  cases w <;> simp [single, ht]

/-! ## The line -/

/-- The null behind a word makes it a string, and changes nothing else. -/
theorem ended_word {f : Bytes} {p : ℕ} (h : ∀ j (hj : j < w.length), f (p + j) = w[j]) :
    CString (put f (p + w.length) 0) p w := by
  refine ⟨fun j hj => ?_, if_pos rfl⟩
  rw [← h j hj]
  exact if_neg (by omega)

theorem ended_frame {f : Bytes} {p x : ℕ} (hx : x ≠ p + w.length) :
    (if w = [] then f else put f (p + w.length) 0) x = f x := by
  split_ifs
  · rfl
  · exact if_neg hx

/-- The loop stores where the words of the line start, and makes them strings. -/
theorem words_line (hl : 0 ∉ l) : ∀ {n : ℕ} {t : ShellScan}, CString t.rdbuf t.p l →
    t.word = false → l.length < n → t.p + l.length < rdbufSize →
      t.argv.length + l.length < procOriginStack → ∃ t', shellLoop n t = .ok t' ∧
        t'.argv = t.argv ++ (words isBlank t.p l).map (fun r => some r.1) ∧
        (∀ r ∈ words isBlank t.p l, CString t'.rdbuf r.1 r.2) ∧
        ∀ x < t.p, t'.rdbuf x = t.rdbuf x := by
  induction l using word_induction isBlank with
  | last w hw =>
    intro n t hline ht hn hp hroom
    have hw' : ∀ c ∈ w, isBlank c = false ∧ c ≠ 0 := fun c hc => ⟨hw c hc, fun h => hl (h ▸ hc)⟩
    obtain ⟨k, rfl⟩ : ∃ k, n = k + 1 + w.length := ⟨n - 1 - w.length, by omega⟩
    obtain ⟨t', hloop, hbuf, hargv, -⟩ := shellLoop_end hw' ht hline.chars hline.null (.inr rfl) hp
      (by omega)
    rw [words_of_forall hw]
    refine ⟨t', hloop k, hargv, fun r hr => ?_, fun x hx => ?_⟩
    · obtain ⟨hne, rfl⟩ := mem_single.1 hr
      rw [hbuf, if_neg hne]
      exact ended_word hline.chars
    · rw [hbuf]
      exact ended_frame (by omega)
  | next w c l hw hc ih =>
    intro n t hline ht hn hp hroom
    have hw' : ∀ c ∈ w, isBlank c = false ∧ c ≠ 0 :=
      fun c hc => ⟨hw c hc, fun h => hl (h ▸ List.mem_append_left _ hc)⟩
    have hl' : 0 ∉ l := fun h => hl (List.mem_append_right _ (List.mem_cons_of_mem _ h))
    have hc0 : c ≠ 0 := fun h => hl (h ▸ List.mem_append_right _ List.mem_cons_self)
    rw [List.length_append, List.length_cons] at hn hp hroom
    obtain ⟨hcat, hrest⟩ := hline.right.tail
    obtain ⟨k, rfl⟩ : ∃ k, n = k + 1 + w.length := ⟨n - 1 - w.length, by omega⟩
    obtain ⟨t', hloop, hbuf, hargv, hpos, hword⟩ := shellLoop_end hw' ht hline.left hcat (.inl hc)
      (by omega) (by omega)
    have hsingle := single_length_le t.p w
    have hline' : CString t'.rdbuf t'.p l := by
      rw [hpos, hbuf]
      exact hrest.congr fun j _ => ended_frame (by omega)
    obtain ⟨t'', hrun, hargv', hstr, hframe⟩ := ih hl' (n := k) hline' hword (by omega) (by omega)
      (by rw [hargv, List.length_append, List.length_map]; omega)
    refine ⟨t'', ?_, ?_, fun r hr => ?_, fun x hx => ?_⟩
    · rw [hloop, if_pos hc0, hrun]
    · rw [hargv', hargv, words_append_cons hw hc, List.map_append, hpos, List.append_assoc]
    · rw [words_append_cons hw hc, List.mem_append, mem_single] at hr
      rcases hr with ⟨hne, rfl⟩ | hr
      · refine CString.congr (f := put t.rdbuf (t.p + w.length) 0) (ended_word hline.left)
          fun j hj => ?_
        have hj : j ≤ w.length := hj
        rw [hframe _ (by dsimp only; omega), hbuf, if_neg hne]
      · exact hstr r (hpos ▸ hr)
    · rw [hframe x (by omega), hbuf]
      exact ended_frame (by omega)

/-! ## The path -/

/-- The characters of a line, in the buffer they are read into. -/
def lineIn (rdbuf : Bytes) (line : List Byte) : Bytes :=
  blit rdbuf 0 line.length fun i => line.getD i 0

theorem lineIn_string (rdbuf : Bytes) (line : List Byte) :
    CString (put (lineIn rdbuf line) line.length 0) 0 line := by
  refine ⟨fun j hj => ?_, if_pos (Nat.zero_add _)⟩
  rw [put, if_neg (by omega), lineIn, blit_inside hj, List.getD_eq_getElem?_getD,
    List.getElem?_eq_getElem hj, Option.getD_some]

theorem cString_bytesFrom {f : Bytes} {off k : ℕ} (h : CString f off w) (h0 : 0 ∉ w)
    (hk : w.length < k) : cString (bytesFrom f off k) = .ok w := by
  obtain ⟨m, rfl⟩ := Nat.exists_eq_add_of_lt hk
  have hword : bytesFrom f off w.length = w := by
    refine List.ext_getElem (by simp [bytesFrom]) fun i hi _ => ?_
    simp [bytesFrom, ← h.chars i (by simpa [bytesFrom] using hi)]
  have hnull : bytesFrom f (off + w.length) 1 = [0] := congrArg (fun c => [c]) h.null
  rw [Nat.add_assoc, bytesFrom_add, hword, Nat.add_comm m, bytesFrom_add, hnull, cString,
    if_pos (by simp), untilNull_append h0, List.singleton_append, untilNull,
    List.takeWhile_cons_of_neg (by decide), List.append_nil]

/-- The words of every line are the arguments, and the first of them is a path exactly if there is
one. -/
theorem shell_words_iff (rdbuf : Bytes) (line : List Byte) (s : ℕ) (hlen : line.length ≤ 70)
    (h0 : 0 ∉ line) : ∃ t, shellSplit (lineIn rdbuf line) line.length s = .ok t ∧
      t.argv = (words isBlank 0 line).map (fun r => some r.1) ++ [none] ∧
      (∀ r ∈ words isBlank 0 line, CString t.rdbuf r.1 r.2) ∧
      (words isBlank 0 line).length < procOriginStack ∧
      (∀ r ∈ (words isBlank 0 line).head?, openPath t = .ok r.2) ∧
      ((∃ path, openPath t = .ok path) ↔ ∃ c ∈ line, c ≠ ascii ' ') := by
  have hsize : rdbufSize = 128 := rfl
  have harray : procOriginStack = 1024 := rfl
  have hcount : 2 * (words isBlank 0 line).length ≤ line.length + 1 := words_length_le
  obtain ⟨t, hloop, hargv, hstr, -⟩ := words_line h0 (n := rdbufSize + 1)
    (t := { rdbuf := put (lineIn rdbuf line) line.length 0, argv := [], p := 0, s, word := false })
    (lineIn_string rdbuf line) rfl (by omega) (by dsimp only; omega)
    (by rw [List.length_nil]; omega)
  rw [List.nil_append] at hargv
  dsimp only at hargv hstr
  have hroom : t.argv.length < procOriginStack := by
    rw [hargv, List.length_map]
    omega
  have hpath : ∀ r ∈ (words isBlank 0 line).head?,
      openPath { t with argv := t.argv ++ [none] } = .ok r.2 := by
    intro r hr
    obtain ⟨rs, hrs⟩ := List.head?_eq_some_iff.1 hr
    have hmem : r ∈ words isBlank 0 line := by
      rw [hrs]
      exact List.mem_cons_self
    obtain ⟨-, hle, hin⟩ := of_mem_words hmem
    rw [openPath, hargv, hrs]
    exact cString_bytesFrom (hstr r hmem) (fun h => h0 (hin 0 h)) (by omega)
  refine ⟨{ t with argv := t.argv ++ [none] },
    by rw [shellSplit, hloop, ok_bind, ShellScan.store, if_pos hroom],
    by rw [hargv], hstr, by omega, hpath, ?_⟩
  have hiff : (∃ c ∈ line, c ≠ ascii ' ') ↔ words isBlank 0 line ≠ [] := by
    rw [words_ne_nil_iff]
    simp [isBlank]
  rw [hiff]
  constructor
  · rintro ⟨path, hp⟩ hnil
    rw [openPath, hargv, hnil] at hp
    cases hp
  · intro hne
    obtain ⟨r, rs, hrs⟩ := List.exists_cons_of_ne_nil hne
    exact ⟨r.2, hpath r (by rw [hrs]; rfl)⟩

/-- The line of a command with an argument. -/
theorem shell_words_echo : ∃ t,
    shellSplit (lineIn (fun _ => 0) [ascii ' ', ascii 'l', ascii ' ', ascii ' ', ascii 'a']) 5 0 =
      .ok t ∧ t.argv = [some 1, some 4, none] ∧ openPath t = .ok [ascii 'l'] := by
  obtain ⟨t, hsplit, hargv, -, -, hpath, -⟩ := shell_words_iff (fun _ => 0)
    [ascii ' ', ascii 'l', ascii ' ', ascii ' ', ascii 'a'] 0 (by decide) (by decide)
  exact ⟨t, hsplit, hargv, hpath (1, [ascii 'l']) rfl⟩

/-- The empty line, and a line of blanks. -/
theorem shell_empty_line :
    ((shellSplit (lineIn (fun _ => 0) []) 0 0) >>= openPath) = .error .wild ∧
    ((shellSplit (lineIn (fun _ => 0) [ascii ' ', ascii ' ']) 2 0) >>= openPath) = .error .wild ∧
    ¬ ∀ (rdbuf : Bytes) (line : List Byte) (s : ℕ), line.length ≤ 70 → 0 ∉ line →
      ∃ path, (shellSplit (lineIn rdbuf line) line.length s >>= openPath) = .ok path := by
  have hempty : ((shellSplit (lineIn (fun _ => 0) []) 0 0) >>= openPath) = .error .wild := rfl
  refine ⟨hempty, rfl, fun h => ?_⟩
  obtain ⟨path, hp⟩ := h (fun _ => 0) [] 0 (by decide) (by decide)
  rw [show ([] : List Byte).length = 0 from rfl, hempty] at hp
  cases hp

end MyOS
