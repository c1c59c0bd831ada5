import MyOS.Console

/-!
# Output stays on its console

The cursor of a console never leaves its cells, and its window starts at one of its rows. So a
cursor below the window is in reach of it, and the loop of `out_char` ends. A guard lets the window
go one row too far, and nothing brings it back up to the cursor. So what the screen shows is the
console's own, with the cursor, as long as the last row is not reached and the window is not
scrolled beyond the cursor.
-/

namespace MyOS

open Memory

/-- The cells of a console, and its whole rows. -/
def conCells : ℕ := 5461
def conRows : ℕ := conCells / 80

/-- The console is the `n`th third of the memory, with its cursor in cell `c` and its window from
row `r` on. -/
structure Console.At (n : Minor) (con : Console) (c r : ℕ) : Prop where
  originalAddr : con.originalAddr.toNat = conCells * n
  vMemLimit : con.vMemLimit.toNat = conCells
  cursor : con.cursor.toNat = conCells * n + c
  cursor_lt : c < conCells
  start : con.currentStartAddr.toNat = conCells * n + 80 * r
  start_le : r ≤ 44

/-- A byte of a cell of the console. -/
def Console.InCells (con : Console) (a : Addr) : Prop :=
  ∃ cell, con.originalAddr.toNat ≤ cell ∧
    cell < con.originalAddr.toNat + con.vMemLimit.toNat ∧
      (a.toNat = vMemBase.toNat + 2 * cell ∨ a.toNat = vMemBase.toNat + 2 * cell + 1)

/-- The cell a character leads the cursor to. -/
def nextCell (c : ℕ) (ch : Byte) : ℕ :=
  if ch = newline then if c + 80 < conCells then 80 * (c / 80 + 1) else c
  else if ch = backspace then c - 1
  else if c + 1 < conCells then c + 1
  else c

/-- The row the window is scrolled to for a cursor. -/
def rowFor (c r : ℕ) : ℕ := if c < 80 * r + 2000 then r else (c - 2000) / 80 + 1

variable {n : Minor} {con : Console} {c r : ℕ} {s s' : Screen}

theorem nextCell_lt (hc : c < conCells) (ch : Byte) : nextCell c ch < conCells := by
  unfold nextCell conCells at *
  split_ifs <;> omega

theorem nextCell_le (c : ℕ) (ch : Byte) : nextCell c ch ≤ c + 80 := by
  unfold nextCell
  split_ifs <;> omega

namespace Console.At

/-! ## A character -/

theorem original_le (h : con.At n c r) : con.originalAddr.toNat ≤ 2 * conCells := by
  rw [h.originalAddr, Nat.mul_comm]
  exact Nat.mul_le_mul_right _ (Nat.le_of_lt_succ n.isLt)

theorem newline_iff (h : con.At n c r) :
    con.cursor < con.originalAddr + con.vMemLimit - screenWidth ↔ c + 80 < conCells := by
  have hle := h.original_le
  obtain ⟨ho, hl, hc, hlt, hs, hr⟩ := h
  unfold screenWidth conCells at *
  bv_omega

theorem newline_cursor (h : con.At n c r) (hroom : c + 80 < conCells) :
    (con.originalAddr + screenWidth * ((con.cursor - con.originalAddr) / screenWidth + 1)).toNat =
      conCells * n + 80 * (c / 80 + 1) := by
  have hle := h.original_le
  obtain ⟨ho, hl, hc, hlt, hs, hr⟩ := h
  have hsub : (con.cursor - con.originalAddr).toNat = c := by bv_omega
  have hdiv : ((con.cursor - con.originalAddr) / screenWidth).toNat = c / 80 := by
    rw [BitVec.toNat_udiv, hsub]
    rfl
  generalize (con.cursor - con.originalAddr) / screenWidth = q at hdiv
  unfold screenWidth conCells at *
  bv_omega

theorem backspace_iff (h : con.At n c r) : con.cursor > con.originalAddr ↔ 0 < c := by
  have hle := h.original_le
  obtain ⟨ho, hl, hc, hlt, hs, hr⟩ := h
  bv_omega

theorem print_iff (h : con.At n c r) :
    con.cursor < con.originalAddr + con.vMemLimit - 1 ↔ c + 1 < conCells := by
  have hle := h.original_le
  obtain ⟨ho, hl, hc, hlt, hs, hr⟩ := h
  unfold conCells at *
  bv_omega

/-- The cursor moves, and nothing else. -/
theorem setCursor (h : con.At n c r) {c' : ℕ} {cursor : BitVec 32}
    (hc : cursor.toNat = conCells * n + c') (hlt : c' < conCells) :
    { con with cursor }.At n c' r :=
  ⟨h.originalAddr, h.vMemLimit, hc, hlt, h.start, h.start_le⟩

theorem put (h : con.At n c r) (ch : Byte) : (con.put ch).1.At n (nextCell c ch) r := by
  have hle := h.original_le
  have ho := h.originalAddr
  have hc := h.cursor
  have hnext := nextCell_lt h.cursor_lt ch
  unfold Console.put nextCell at *
  dsimp only
  by_cases hnl : ch = newline
  · simp only [if_pos hnl] at hnext ⊢
    by_cases hroom : c + 80 < conCells
    · rw [if_pos (h.newline_iff.2 hroom), if_pos hroom]
      rw [if_pos hroom] at hnext
      exact h.setCursor (h.newline_cursor hroom) hnext
    · rwa [if_neg (mt h.newline_iff.1 hroom), if_neg hroom]
  · simp only [if_neg hnl] at hnext ⊢
    by_cases hbs : ch = backspace
    · simp only [if_pos hbs] at hnext ⊢
      by_cases hpos : 0 < c
      · rw [if_pos (h.backspace_iff.2 hpos)]
        exact h.setCursor (by bv_omega) hnext
      · rw [if_neg (mt h.backspace_iff.1 hpos), show c - 1 = c by omega]
        exact h
    · simp only [if_neg hbs] at hnext ⊢
      by_cases hroom : c + 1 < conCells
      · rw [if_pos (h.print_iff.2 hroom), if_pos hroom]
        rw [if_pos hroom] at hnext
        exact h.setCursor (by unfold conCells at *; bv_omega) hnext
      · rwa [if_neg (mt h.print_iff.1 hroom), if_neg hroom]

theorem put_inCells (h : con.At n c r) (ch : Byte) : ∀ w ∈ (con.put ch).2, con.InCells w.1 := by
  have hle := h.original_le
  have ho := h.originalAddr
  have hl := h.vMemLimit
  have hc := h.cursor
  have hlt := h.cursor_lt
  have hbase : vMemBase.toNat = 0xB8000 := rfl
  unfold Console.put
  dsimp only
  split_ifs with hnl hroom hbs hpos hroom
  · nofun
  · nofun
  · have hpos' := h.backspace_iff.1 hpos
    intro w hw
    simp only [List.mem_cons, List.not_mem_nil, or_false] at hw
    unfold conCells at *
    refine ⟨con.cursor.toNat - 1, by omega, by omega, ?_⟩
    rcases hw with rfl | rfl
    · left
      bv_omega
    · right
      bv_omega
  · nofun
  · intro w hw
    simp only [List.mem_cons, List.not_mem_nil, or_false] at hw
    unfold conCells at *
    refine ⟨con.cursor.toNat, by omega, by omega, ?_⟩
    rcases hw with rfl | rfl
    · left
      bv_omega
    · right
      bv_omega
  · nofun

/-! ## The window -/

theorem scroll_iff (h : con.At n c r) :
    con.currentStartAddr + screenSize < con.originalAddr + con.vMemLimit ↔ r < 44 := by
  have hle := h.original_le
  have hsize : screenSize.toNat = 2000 := rfl
  obtain ⟨ho, hl, hc, hlt, hs, hr⟩ := h
  unfold conCells at *
  have hbottom : (con.currentStartAddr + screenSize).toNat = 5461 * n + 80 * r + 2000 := by bv_omega
  have hlimit : (con.originalAddr + con.vMemLimit).toNat = 5461 * n + 5461 := by bv_omega
  rw [BitVec.lt_def, hbottom, hlimit]
  omega

theorem below_iff (h : con.At n c r) :
    con.cursor ≥ con.currentStartAddr + screenSize ↔ 80 * r + 2000 ≤ c := by
  have hle := h.original_le
  have hsize : screenSize.toNat = 2000 := rfl
  obtain ⟨ho, hl, hc, hlt, hs, hr⟩ := h
  unfold conCells at *
  bv_omega

theorem scrollDn (h : con.At n c r) : (con.scroll scrDn).At n c (min (r + 1) 44) := by
  have hle := h.original_le
  have hs := h.start
  have ho := h.originalAddr
  unfold Console.scroll
  rw [if_neg (by decide), if_pos rfl]
  by_cases hr : r < 44
  · rw [if_pos (h.scroll_iff.2 hr), min_eq_left (by omega)]
    refine ⟨h.originalAddr, h.vMemLimit, h.cursor, h.cursor_lt, ?_, by omega⟩
    unfold screenWidth conCells at *
    bv_omega
  · rw [if_neg (mt h.scroll_iff.1 hr), min_eq_right (by omega), show 44 = r from
      Nat.le_antisymm (by omega) h.start_le]
    exact h

theorem scrollUp (h : con.At n c r) : (con.scroll scrUp).At n c (r - 1) := by
  have hle := h.original_le
  have hs := h.start
  have ho := h.originalAddr
  have hlt := h.start_le
  unfold Console.scroll
  rw [if_pos rfl]
  by_cases hr : 0 < r
  · rw [if_pos (by bv_omega)]
    refine ⟨h.originalAddr, h.vMemLimit, h.cursor, h.cursor_lt, ?_, by omega⟩
    unfold screenWidth conCells at *
    bv_omega
  · rw [if_neg (by bv_omega), show r - 1 = r by omega]
    exact h

end Console.At

/-! ## The loop -/

/-- Only the console `n` and what is shown of it change. -/
structure OnlyConsole (n : Minor) (s s' : Screen) : Prop where
  others : ∀ m, m ≠ n → s'.consoleTable m = s.consoleTable m
  current : s'.nrCurrentConsole = s.nrCurrentConsole

theorem OnlyConsole.refl (n : Minor) (s : Screen) : OnlyConsole n s s := ⟨fun _ _ => rfl, rfl⟩

theorem OnlyConsole.trans {s'' : Screen} (h : OnlyConsole n s s') (h' : OnlyConsole n s' s'') :
    OnlyConsole n s s'' :=
  ⟨fun m hm => (h'.others m hm).trans (h.others m hm), h'.current.trans h.current⟩

@[simp] theorem flush_consoleTable (s : Screen) (n : Minor) :
    (s.flush n).consoleTable = s.consoleTable := by
  unfold Screen.flush
  split_ifs <;> rfl

@[simp] theorem flush_nrCurrentConsole (s : Screen) (n : Minor) :
    (s.flush n).nrCurrentConsole = s.nrCurrentConsole := by
  unfold Screen.flush
  split_ifs <;> rfl

@[simp] theorem setConsole_self (s : Screen) (n : Minor) (con : Console) :
    (s.setConsole n con).consoleTable n = con :=
  Function.update_self _ _ _

theorem setConsole_of_ne (s : Screen) (con : Console) {m : Minor} (h : m ≠ n) :
    (s.setConsole n con).consoleTable m = s.consoleTable m :=
  Function.update_of_ne h _ _

theorem OnlyConsole.flush (s : Screen) (n : Minor) (con : Console) :
    OnlyConsole n s ((s.setConsole n con).flush n) :=
  ⟨fun m hm => by rw [flush_consoleTable, setConsole_of_ne _ _ hm], flush_nrCurrentConsole _ _⟩

@[simp] theorem scrollScreen_self (s : Screen) (n : Minor) (direction : Int) :
    (s.scrollScreen n direction).consoleTable n = (s.consoleTable n).scroll direction := by
  simp [Screen.scrollScreen]

/-- Each turn brings the window one row closer to the cursor, and the last row of the console is in
reach of it. -/
theorem scrollOn_spec (fuel : ℕ) {s : Screen} {r : ℕ} (h : (s.consoleTable n).At n c r)
    (hf : c < 80 * (r + fuel) + 2000) : ∃ s', Screen.scrollOn n (fuel + 1) s = .ok s' ∧
      OnlyConsole n s s' ∧ (s'.consoleTable n).At n c (rowFor c r) := by
  have hshown {s : Screen} {r fuel : ℕ} (h : (s.consoleTable n).At n c r)
      (hr : c < 80 * r + 2000) : ∃ s', Screen.scrollOn n (fuel + 1) s = .ok s' ∧
        OnlyConsole n s s' ∧ (s'.consoleTable n).At n c (rowFor c r) := by
    refine ⟨s, ?_, .refl n s, ?_⟩
    · rw [Screen.scrollOn, if_neg (mt h.below_iff.1 (by omega))]
    · rwa [rowFor, if_pos hr]
  induction fuel generalizing s r with
  | zero => exact hshown h (by omega)
  | succ fuel ih =>
    by_cases hbelow : 80 * r + 2000 ≤ c
    · have hc := h.cursor_lt
      unfold conCells at hc
      have hdn : ((s.scrollScreen n scrDn).consoleTable n).At n c (r + 1) := by
        have := h.scrollDn
        rw [min_eq_left (by omega)] at this
        simpa using this
      obtain ⟨s', hs', honly, hat⟩ := ih hdn (by omega)
      refine ⟨s', ?_, (OnlyConsole.flush s n _).trans honly, ?_⟩
      · rw [Screen.scrollOn, if_pos (h.below_iff.2 hbelow)]
        exact hs'
      · rwa [show rowFor c r = rowFor c (r + 1) by
          unfold rowFor
          split_ifs <;> omega]
    · exact hshown h (by omega)

theorem outChar_spec (h : (s.consoleTable n).At n c r) (ch : Byte) : ∃ s', s.outChar n ch = .ok s' ∧
    OnlyConsole n s s' ∧ (s'.consoleTable n).At n (nextCell c ch) (rowFor (nextCell c ch) r) := by
  have hput := h.put ch
  have hlt := nextCell_lt h.cursor_lt ch
  have hat₁ : (((s.setConsole n ((s.consoleTable n).put ch).1).write
      ((s.consoleTable n).put ch).2).consoleTable n).At n (nextCell c ch) r := by
    simpa [Screen.write] using hput
  obtain ⟨fuel, hfuel⟩ : ∃ fuel, conCells = fuel + 1 := ⟨5460, rfl⟩
  obtain ⟨s', hs', honly, hat⟩ := scrollOn_spec fuel hat₁ (by omega)
  refine ⟨s'.flush n, ?_, ?_, by simpa using hat⟩
  · rw [Screen.outChar]
    dsimp only
    rw [hput.vMemLimit, hfuel, hs']
    rfl
  · refine ⟨fun m hm => ?_, ?_⟩
    · rw [flush_consoleTable, honly.others m hm]
      exact setConsole_of_ne _ _ hm
    · rw [flush_nrCurrentConsole, honly.current]
      rfl

/-! ## Runs -/

/-- Every console is in order. -/
def Consoles (s : Screen) : Prop := ∀ n, ∃ c r, (s.consoleTable n).At n c r

theorem Consoles.change (h : Consoles s) (honly : OnlyConsole n s s')
    (hat : ∃ c r, (s'.consoleTable n).At n c r) : Consoles s' := by
  intro m
  rcases eq_or_ne m n with rfl | hm
  · exact hat
  · rw [honly.others m hm]
    exact h m

theorem Console.At.scroll (h : con.At n c r) (direction : Int) :
    ∃ r', (con.scroll direction).At n c r' := by
  by_cases hup : direction = scrUp
  · exact ⟨_, hup ▸ h.scrollUp⟩
  · by_cases hdn : direction = scrDn
    · exact ⟨_, hdn ▸ h.scrollDn⟩
    · refine ⟨r, ?_⟩
      unfold Console.scroll
      rwa [if_neg hup, if_neg hdn]

theorem selectConsole_consoleTable (s : Screen) (nrConsole : Int) :
    (s.selectConsole nrConsole).consoleTable = s.consoleTable := by
  unfold Screen.selectConsole
  split_ifs
  · rfl
  · exact flush_consoleTable _ _

theorem Consoles.step {a : ScreenAct} (h : Consoles s) (hs : ScreenStep s a s') : Consoles s' := by
  cases a with
  | outChar n ch =>
    obtain ⟨c, r, hat⟩ := h n
    obtain ⟨s₁, hs₁, honly, hat'⟩ := outChar_spec hat ch
    simp only [ScreenStep, screenStep, hs₁] at hs
    obtain rfl := Option.some.inj hs
    exact h.change honly ⟨_, _, hat'⟩
  | scrollScreen n direction =>
    obtain rfl := Option.some.inj hs
    obtain ⟨c, r, hat⟩ := h n
    obtain ⟨r', hat'⟩ := hat.scroll direction
    exact h.change (OnlyConsole.flush s n _) ⟨c, r', by simpa using hat'⟩
  | selectConsole nrConsole =>
    obtain rfl := Option.some.inj hs
    intro n
    rw [selectConsole_consoleTable]
    exact h n

/-! ## The start -/

/-- The boot has left its position inside the first console. -/
def BootInside (s : Screen) : Prop :=
  0 ≤ (s.dispPos.sdiv 2).toInt ∧
    (s.dispPos.sdiv 2).toInt < (vMemSize >>> 1 / BitVec.ofNat 32 nrConsoles).toInt

theorem originalAddr_toNat (n : Minor) :
    (BitVec.ofNat 32 n * (vMemSize >>> 1 / BitVec.ofNat 32 nrConsoles)).toNat = conCells * n := by
  match n with
  | 0 | 1 | 2 => rfl

/-- A console of which nothing has been written yet. -/
theorem at_origin (n : Minor) : Console.At n
    { currentStartAddr := BitVec.ofNat 32 n * (vMemSize >>> 1 / BitVec.ofNat 32 nrConsoles)
      originalAddr := BitVec.ofNat 32 n * (vMemSize >>> 1 / BitVec.ofNat 32 nrConsoles)
      vMemLimit := vMemSize >>> 1 / BitVec.ofNat 32 nrConsoles
      cursor := BitVec.ofNat 32 n * (vMemSize >>> 1 / BitVec.ofNat 32 nrConsoles) } 0 0 :=
  ⟨originalAddr_toNat n, rfl, originalAddr_toNat n, by decide, originalAddr_toNat n, by decide⟩

/-- The first console has the cursor where the boot has left it. -/
theorem BootInside.at (h : BootInside s) (hat : con.At 0 0 0) :
    { con with cursor := s.dispPos.sdiv 2 }.At 0 (s.dispPos.sdiv 2).toNat 0 := by
  obtain ⟨hpos, hlt⟩ := h
  have hlim : (vMemSize >>> 1 / BitVec.ofNat 32 nrConsoles).toInt = 5461 := rfl
  rw [hlim] at hlt
  have htoInt : (s.dispPos.sdiv 2).toInt = (s.dispPos.sdiv 2).toNat := by
    rw [BitVec.toInt_eq_toNat_cond] at hpos hlt ⊢
    split_ifs at hpos hlt ⊢ <;> omega
  exact hat.setCursor (by simp) (by unfold conCells; omega)

theorem initScreen_zero (h : BootInside s) : ∃ s', s.initScreen 0 = .ok s' ∧
    OnlyConsole 0 s s' ∧ ∃ c, (s'.consoleTable 0).At 0 c 0 := by
  have hat := h.at (at_origin 0)
  refine ⟨_, rfl, ⟨fun m hm => ?_, rfl⟩, (s.dispPos.sdiv 2).toNat, ?_⟩
  · exact (setConsole_of_ne _ _ hm).trans (setConsole_of_ne _ _ hm)
  · simpa [Screen.setCursor, Screen.setConsole] using hat

theorem initScreen_other (s : Screen) (hn : n ≠ 0) : ∃ s', s.initScreen n = .ok s' ∧
    OnlyConsole n s s' ∧ ∃ c, (s'.consoleTable n).At n c 0 := by
  unfold Screen.initScreen
  dsimp only
  generalize hs₀ : s.setConsole n _ = s₀
  have honly₀ : OnlyConsole n s s₀ := by
    rw [← hs₀]
    exact ⟨fun m hm => setConsole_of_ne _ _ hm, rfl⟩
  have hat₀ : (s₀.consoleTable n).At n 0 0 := by
    rw [← hs₀, setConsole_self]
    exact at_origin n
  obtain ⟨s₁, h1, honly₁, hat₁⟩ := outChar_spec hat₀ (BitVec.ofNat 8 n + 0x30)
  obtain ⟨s₂, h2, honly₂, hat₂⟩ := outChar_spec hat₁ 0x23
  rw [if_neg hn, h1, ok_bind, h2, ok_bind]
  have hc₁ := nextCell_le 0 (BitVec.ofNat 8 n + 0x30)
  have hc₂ := nextCell_le (nextCell 0 (BitVec.ofNat 8 n + 0x30)) 0x23
  rw [rowFor, if_pos (by omega), rowFor, if_pos (by omega)] at hat₂
  exact ⟨_, rfl, honly₀.trans (honly₁.trans ⟨honly₂.others, honly₂.current⟩), _, hat₂⟩

/-- The consoles are set up one after the other. -/
theorem initScreens_spec (h : BootInside s) : ∃ s', s.initScreens = .ok s' ∧
    ∀ n, ∃ c, (s'.consoleTable n).At n c 0 := by
  obtain ⟨s₁, h1, honly1, hat1⟩ := initScreen_zero h
  obtain ⟨s₂, h2, honly2, hat2⟩ := initScreen_other s₁ (n := 1) (by decide)
  obtain ⟨s₃, h3, honly3, hat3⟩ := initScreen_other s₂ (n := 2) (by decide)
  refine ⟨s₃.selectConsole 0, ?_, fun n => ?_⟩
  · rw [Screen.initScreens, h1, ok_bind, h2, ok_bind, h3, ok_bind]
  · rw [selectConsole_consoleTable]
    match n with
    | 0 =>
      rw [honly3.others 0 (by decide), honly2.others 0 (by decide)]
      exact hat1
    | 1 =>
      rw [honly3.others 1 (by decide)]
      exact hat2
    | 2 => exact hat3

theorem screenStart_at (hs : ScreenStart s) (n : Minor) : ∃ c, (s.consoleTable n).At n c 0 := by
  obtain ⟨s₀, hpos, hlt, hs⟩ := hs
  obtain ⟨s', hs', hat⟩ := initScreens_spec (s := s₀) ⟨hpos, hlt⟩
  obtain rfl := Except.ok.inj (hs'.symm.trans hs)
  exact hat n

theorem Consoles.of_run {tr : List ScreenAct} (hr : Run ScreenStart ScreenStep tr s) : Consoles s :=
  hr.invariant (P := fun _ s => Consoles s)
    (fun _ hs n => (screenStart_at hs n).imp fun _ hat => ⟨0, hat⟩)
    fun _ _ _ _ h hs => h.step hs

/-- In every state of a run the cursor of a console is in its cells and its window does not start
before them, and `out_char` writes to these cells only and comes to an end. -/
theorem console_own_cells {tr : List ScreenAct} (hr : Run ScreenStart ScreenStep tr s) (n : Minor) :
    ((s.consoleTable n).originalAddr.toNat ≤ (s.consoleTable n).cursor.toNat ∧
      (s.consoleTable n).cursor.toNat <
        (s.consoleTable n).originalAddr.toNat + (s.consoleTable n).vMemLimit.toNat) ∧
    (s.consoleTable n).originalAddr.toNat ≤ (s.consoleTable n).currentStartAddr.toNat ∧
    ∀ ch, (∀ w ∈ ((s.consoleTable n).put ch).2, (s.consoleTable n).InCells w.1) ∧
      ∃ s', s.outChar n ch = .ok s' := by
  obtain ⟨c, r, h⟩ := Consoles.of_run hr n
  refine ⟨?_, ?_, fun ch => ⟨h.put_inCells ch, ?_⟩⟩
  · have := h.cursor_lt
    rw [h.originalAddr, h.vMemLimit, h.cursor]
    omega
  · rw [h.originalAddr, h.start]
    exact Nat.le_add_right _ _
  · obtain ⟨s', hs', -⟩ := outChar_spec h ch
    exact ⟨s', hs'⟩

/-- A screen on which the boot has written a line. -/
def bootedScreen : Screen where
  consoleTable := fun _ => ⟨0, 0, 0, 0⟩
  nrCurrentConsole := 0
  crtc := ⟨0, 0, 0, 0⟩
  mem := fun _ => 0
  dispPos := 160

theorem console_own_cells_printed : ∃ s, Run ScreenStart ScreenStep [.outChar 0 0x61] s ∧
    ((s.consoleTable 0).originalAddr.toNat ≤ (s.consoleTable 0).cursor.toNat ∧
      (s.consoleTable 0).cursor.toNat <
        (s.consoleTable 0).originalAddr.toNat + (s.consoleTable 0).vMemLimit.toNat) ∧
    (s.consoleTable 0).originalAddr.toNat ≤ (s.consoleTable 0).currentStartAddr.toNat ∧
    ∀ ch, (∀ w ∈ ((s.consoleTable 0).put ch).2, (s.consoleTable 0).InCells w.1) ∧
      ∃ s', s.outChar 0 ch = .ok s' := by
  obtain ⟨s₀, hs₀, hat⟩ := initScreens_spec (s := bootedScreen) ⟨by decide, by decide⟩
  obtain ⟨c, hat⟩ := hat 0
  obtain ⟨s, hs, -⟩ := outChar_spec hat 0x61
  have hstart : ScreenStart s₀ := ⟨bootedScreen, by decide, by decide, hs₀⟩
  have hr : Run ScreenStart ScreenStep [.outChar 0 0x61] s :=
    (Run.start hstart).snoc (toOption_eq_some.2 hs)
  exact ⟨s, hr, console_own_cells hr 0⟩

/-! ## What is shown -/

/-- The window is a part of the console. -/
def Console.WindowOwn (con : Console) : Prop :=
  con.originalAddr.toNat ≤ con.currentStartAddr.toNat ∧
    con.currentStartAddr.toNat + screenSize.toNat ≤ con.originalAddr.toNat + con.vMemLimit.toNat

/-- The cursor is in the window. -/
def Console.CursorShown (con : Console) : Prop :=
  con.currentStartAddr.toNat ≤ con.cursor.toNat ∧
    con.cursor.toNat < con.currentStartAddr.toNat + screenSize.toNat

/-- Every console shows its own cells, and the cursor where the last step has been output to it. -/
def Shown (s : Screen) (last : Option ScreenAct) : Prop :=
  (∀ n, (s.consoleTable n).WindowOwn) ∧
    ∀ n ch, last = some (.outChar n ch) → (s.consoleTable n).CursorShown

/-- The character does not lead the cursor, from its cell `c`, above the window nor into the last
row, which is not a whole one. -/
def Console.Keeps (con : Console) (ch : Byte) : Prop :=
  let c := con.cursor.toNat - con.originalAddr.toNat
  let top := con.currentStartAddr.toNat - con.originalAddr.toNat
  let rows := con.vMemLimit.toNat / 80
  if ch = newline ∧ c + 80 < con.vMemLimit.toNat then top / 80 ≤ c / 80 + 1 ∧ c / 80 + 1 < rows
  else if ch = newline then top ≤ c ∧ c < 80 * rows
  else if ch = backspace then (top < c ∨ top = 0) ∧ c ≤ 80 * rows
  else top ≤ c + 1 ∧ c + 1 < 80 * rows

/-- A character is kept in the window, and the window is not moved down where less than a row is
left below it. -/
def KeepsWindow (s : Screen) : ScreenAct → Prop
  | .outChar n ch => (s.consoleTable n).Keeps ch
  | .scrollScreen n direction => direction = scrDn →
    (s.consoleTable n).currentStartAddr.toNat + screenSize.toNat + screenWidth.toNat ≤
      (s.consoleTable n).originalAddr.toNat + (s.consoleTable n).vMemLimit.toNat
  | .selectConsole _ => True

namespace Console.At

theorem windowOwn_iff (h : con.At n c r) : con.WindowOwn ↔ r ≤ 43 := by
  have hsize : screenSize.toNat = 2000 := rfl
  unfold WindowOwn
  rw [h.originalAddr, h.vMemLimit, h.start, hsize]
  unfold conCells
  omega

theorem cursorShown_iff (h : con.At n c r) : con.CursorShown ↔ 80 * r ≤ c ∧ c < 80 * r + 2000 := by
  have hsize : screenSize.toNat = 2000 := rfl
  unfold CursorShown
  rw [h.cursor, h.start, hsize]
  omega

theorem keeps_iff (h : con.At n c r) (ch : Byte) :
    con.Keeps ch ↔ 80 * r ≤ nextCell c ch ∧ nextCell c ch < 80 * conRows := by
  have hrows : conRows = 68 := rfl
  unfold Keeps
  dsimp only
  rw [h.originalAddr, h.vMemLimit, h.cursor, h.start, Nat.add_sub_cancel_left,
    Nat.add_sub_cancel_left, ← conRows, hrows]
  have hlt := h.cursor_lt
  unfold nextCell
  by_cases hnl : ch = newline
  · by_cases hroom : c + 80 < conCells
    · rw [if_pos ⟨hnl, hroom⟩, if_pos hnl, if_pos hroom]
      omega
    · rw [if_neg fun hn => hroom hn.2, if_pos hnl, if_pos hnl, if_neg hroom]
  · rw [if_neg fun hn => hnl hn.1, if_neg hnl, if_neg hnl]
    by_cases hbs : ch = backspace
    · rw [if_pos hbs, if_pos hbs]
      omega
    · rw [if_neg hbs, if_neg hbs]
      split_ifs with hroom
      · rfl
      · unfold conCells at *
        omega

end Console.At

/-- Where the window is its own, it is after a character, with the cursor in it, just where the
character is kept. -/
theorem rowFor_iff {c' : ℕ} (hr : r ≤ 43) :
    rowFor c' r ≤ 43 ∧ 80 * rowFor c' r ≤ c' ∧ c' < 80 * rowFor c' r + 2000 ↔
      80 * r ≤ c' ∧ c' < 80 * conRows := by
  have hrows : conRows = 68 := rfl
  rw [hrows]
  unfold rowFor
  split_ifs <;> omega

theorem Shown.step_iff {a : ScreenAct} {last : Option ScreenAct} (h : Consoles s)
    (hw : Shown s last) (hs : ScreenStep s a s') : Shown s' (some a) ↔ KeepsWindow s a := by
  have hothers {n : Minor} (honly : OnlyConsole n s s') (hown : (s'.consoleTable n).WindowOwn) :
      ∀ m, (s'.consoleTable m).WindowOwn := by
    intro m
    rcases eq_or_ne m n with rfl | hm
    · exact hown
    · rw [honly.others m hm]
      exact hw.1 m
  cases a with
  | outChar n ch =>
    obtain ⟨c, r, hat⟩ := h n
    obtain ⟨s₁, hs₁, honly, hat'⟩ := outChar_spec hat ch
    obtain rfl := Except.ok.inj (hs₁.symm.trans (toOption_eq_some.1 hs))
    have hr := hat.windowOwn_iff.1 (hw.1 n)
    rw [KeepsWindow, hat.keeps_iff, ← rowFor_iff hr, ← hat'.windowOwn_iff, ← hat'.cursorShown_iff]
    constructor
    · intro hw'
      exact ⟨hw'.1 n, hw'.2 n ch rfl⟩
    · rintro ⟨hown, hshown⟩
      refine ⟨hothers honly hown, ?_⟩
      rintro m ch' he
      cases he
      exact hshown
  | scrollScreen n direction =>
    obtain rfl := Option.some.inj hs
    obtain ⟨c, r, hat⟩ := h n
    have hr := hat.windowOwn_iff.1 (hw.1 n)
    have honly : OnlyConsole n s (s.scrollScreen n direction) := OnlyConsole.flush s n _
    have hshown : Shown (s.scrollScreen n direction) (some (.scrollScreen n direction)) ↔
        ((s.consoleTable n).scroll direction).WindowOwn := by
      rw [← scrollScreen_self]
      exact ⟨fun hw' => hw'.1 n, fun hown => ⟨hothers honly hown, nofun⟩⟩
    have hkeeps : KeepsWindow s (.scrollScreen n direction) ↔ (direction = scrDn → r ≤ 42) := by
      have hsize : screenSize.toNat = 2000 := rfl
      have hwidth : screenWidth.toNat = 80 := rfl
      rw [KeepsWindow, hat.originalAddr, hat.vMemLimit, hat.start, hsize, hwidth]
      unfold conCells
      exact forall_congr' fun _ => by omega
    rw [hshown, hkeeps]
    by_cases hdn : direction = scrDn
    · rw [hdn, hat.scrollDn.windowOwn_iff]
      simp only [forall_const]
      omega
    · refine iff_of_true ?_ fun he => absurd he hdn
      by_cases hup : direction = scrUp
      · rw [hup, hat.scrollUp.windowOwn_iff]
        omega
      · unfold Console.scroll
        rw [if_neg hup, if_neg hdn]
        exact hw.1 n
  | selectConsole nrConsole =>
    obtain rfl := Option.some.inj hs
    refine iff_of_true ⟨fun n => ?_, nofun⟩ trivial
    rw [selectConsole_consoleTable]
    exact hw.1 n

/-- In every run in which the steps keep the window, the screen shows the cells of the consoles and
the cursor, and after the next step it does so just where that step keeps the window. -/
theorem window_shown {tr : List ScreenAct}
    (hr : Run ScreenStart (fun s a s' => ScreenStep s a s' ∧ KeepsWindow s a) tr s) :
    Shown s tr.head? ∧ ∀ a s', ScreenStep s a s' → (Shown s' (some a) ↔ KeepsWindow s a) := by
  have hinv : Consoles s ∧ Shown s tr.head? := by
    refine hr.invariant (P := fun tr s => Consoles s ∧ Shown s tr.head?) (fun s hs => ?_)
      fun tr s a s' ⟨h, hw⟩ ⟨hs, hk⟩ => ⟨h.step hs, (hw.step_iff h hs).2 hk⟩
    have hat := screenStart_at hs
    refine ⟨fun n => (hat n).imp fun _ hat => ⟨0, hat⟩, fun n => ?_, nofun⟩
    obtain ⟨c, hat⟩ := hat n
    exact hat.windowOwn_iff.2 (by decide)
  exact ⟨hinv.2, fun a s' hs => hinv.2.step_iff hinv.1 hs⟩

instance (con : Console) (ch : Byte) : Decidable (con.Keeps ch) := by
  unfold Console.Keeps
  infer_instance

instance (s : Screen) : (a : ScreenAct) → Decidable (KeepsWindow s a)
  | .outChar n ch => inferInstanceAs (Decidable ((s.consoleTable n).Keeps ch))
  | .scrollScreen _ _ => inferInstanceAs (Decidable (_ → _))
  | .selectConsole _ => inferInstanceAs (Decidable True)

instance (con : Console) : Decidable con.WindowOwn := inferInstanceAs (Decidable (_ ∧ _))

instance (con : Console) : Decidable con.CursorShown := inferInstanceAs (Decidable (_ ∧ _))

/-- Steps from the screen the boot has left. -/
theorem run_booted (step : Screen → ScreenAct → Option Screen) {l : List ScreenAct}
    {P : Screen → Prop} [DecidablePred P]
    (h : (bootedScreen.initScreens.toOption.bind fun s => Run.exec step s l).any (fun s => P s)) :
    ∃ s, Run ScreenStart (fun s a s' => step s a = some s') l.reverse s ∧ P s := by
  obtain ⟨s₀, hs₀, -⟩ := initScreens_spec (s := bootedScreen) ⟨by decide, by decide⟩
  have hstart : ScreenStart s₀ := ⟨bootedScreen, by decide, by decide, hs₀⟩
  obtain ⟨s, hs, hp⟩ := (Option.any_eq_true _ _).1 h
  rw [hs₀] at hs
  have hrun := Run.of_exec (.start hstart) (show Run.exec step s₀ l = some s from hs)
  rw [List.append_nil] at hrun
  exact ⟨s, hrun, of_decide_eq_true hp⟩

/-- A character is written below the line of the boot, and the window is moved down by a row. -/
theorem window_shown_moved : ∃ s tr,
    Run ScreenStart (fun s a s' => ScreenStep s a s' ∧ KeepsWindow s a) tr s ∧
      (s.consoleTable 0).currentStartAddr = 80 ∧ Shown s tr.head? ∧
        ∀ a s', ScreenStep s a s' → (Shown s' (some a) ↔ KeepsWindow s a) := by
  obtain ⟨s, hr, hp⟩ := run_booted
    (fun s a => if KeepsWindow s a then screenStep s a else none)
    (l := [.outChar 0 0x61, .scrollScreen 0 scrDn])
    (P := fun s => (s.consoleTable 0).currentStartAddr = 80) (by decide +kernel)
  have hrun : Run ScreenStart (fun s a s' => ScreenStep s a s' ∧ KeepsWindow s a) _ s :=
    hr.mono fun s a s' hs => by
      split_ifs at hs with hk
      exact ⟨hs, hk⟩
  exact ⟨s, _, hrun, hp, window_shown hrun⟩

/-- The window is moved down as far as it goes, and ends outside of the console; or by two rows,
and the next character is written above it. -/
theorem window_lost :
    (∃ s tr, Run ScreenStart ScreenStep tr s ∧ ¬ (s.consoleTable 0).WindowOwn) ∧
      ∃ s tr ch, Run ScreenStart ScreenStep (.outChar 0 ch :: tr) s ∧
        ¬ (s.consoleTable 0).CursorShown := by
  constructor
  · obtain ⟨s, hr, hp⟩ := run_booted screenStep
      (l := List.replicate 44 (.scrollScreen 0 scrDn))
      (P := fun s => ¬ (s.consoleTable 0).WindowOwn) (by decide +kernel)
    exact ⟨s, _, hr, hp⟩
  · obtain ⟨s, hr, hp⟩ := run_booted screenStep
      (l := [.scrollScreen 0 scrDn, .scrollScreen 0 scrDn, .outChar 0 0x61])
      (P := fun s => ¬ (s.consoleTable 0).CursorShown) (by decide +kernel)
    exact ⟨s, _, 0x61, hr, hp⟩

end MyOS
