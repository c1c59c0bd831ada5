import MyOS.TaskTty
import MyOS.Proofs.SendQueue

/-!
# The scan codes

The terminal task that sleeps is woken for what the keyboard has left in the buffer by `key_pressed`
or by a pending interrupt. The loop over the terminals reads one key at a time of the terminal on
the screen and asks `inbuf_count`, which counts characters, whether to go on. So the codes behind a
key stay in the buffer, and where no interrupt of the keyboard has come since the task was woken,
until the next one.
-/

namespace MyOS

open Memory

namespace TtySys

/-- The terminal task in the process table. -/
def task (s : TtySys) : Proc := s.kernel.procTable taskTty

/-- There is nothing in the buffer, or the task will hear of it. -/
def Seen (s : TtySys) : Prop := s.kbIn.count = 0 ∨ s.keyPressed = true ∨ s.task.hasIntMsg = true

/-- The terminal on the screen has had its turn, and the task has got no message since. -/
def Passed (s : TtySys) : TtyPlace → Prop
  | .read tty => s.nrCurrentConsole < tty
  | .scan _ _ => False
  | .write tty => s.nrCurrentConsole ≤ tty
  | .again tty => s.nrCurrentConsole ≤ tty
  | .send _ _ (some tty) => s.nrCurrentConsole ≤ tty
  | .send _ _ none => False
  | .receive => True
  | .received => Receiving s.task

/-- Codes are left that the task will not read before another key or a message. -/
def Stranded (s : TtySys) : Prop := s.Passed s.place ∧ ¬ s.Seen

/-- The task waits in its `RECEIVE` only, and when `tty_dev_write` is done the terminal has no
character left. -/
structure Regular (s : TtySys) : Prop where
  waits : Receiving s.task → s.place = .received
  written : ∀ tty, s.place = .again tty → (s.ttyTable tty).inbufCount = 0

/-- Where the code at hand is the last of a key: the terminal the key is read for, and the one that
is on the screen afterwards. -/
def keyEnds (s : TtySys) : Option (Minor × Minor) :=
  match s.place with
  | .scan tty sc =>
    match scanByte sc (getByteFromKbuf s.kbIn).1 with
    | .more _ => none
    | .key scanCode codeWithE0 => some (tty, (s.endKey tty scanCode codeWithE0).nrCurrentConsole)
    | .special => some (tty, s.nrCurrentConsole)
  | _ => none

/-- The terminal on the screen has its turn after `tty`, or the code at hand is the only one, or the
task will hear of the others. -/
def Followed (s : TtySys) (tty screen : Minor) : Prop :=
  tty < screen ∨ s.kbIn.count ≤ 1 ∨ s.keyPressed = true ∨ s.task.hasIntMsg = true

instance (s : TtySys) (tty screen : Minor) : Decidable (s.Followed tty screen) :=
  inferInstanceAs (Decidable (_ ∨ _))

end TtySys

/-- The task takes the last code of a key only where what is behind it in the buffer will be read
without a further key. -/
def KeysFollowed (s : TtySys) : TtySysAct → Prop
  | .tty => ∀ e ∈ s.keyEnds, s.Followed e.1 e.2
  | _ => True

instance (s : TtySys) : (a : TtySysAct) → Decidable (KeysFollowed s a)
  | .tty => inferInstanceAs (Decidable (∀ e ∈ s.keyEnds, _))
  | .keyboard _ => inferInstanceAs (Decidable True)
  | .clock => inferInstanceAs (Decidable True)
  | .kernel _ => inferInstanceAs (Decidable True)

/-! ## The task and the kernel -/

/-- A process that runs and makes a trap is not left waiting for a message by a `SEND`, and by a
`RECEIVE` only where nothing is pending. -/
theorem sendrec_task {k k' : Kernel} {p : Slot} {function : Function} {srcDest : Int} {m : Addr}
    (hp : (k.procTable p).pFlags = 0) (h : sendrec k p function srcDest m = .ok k') :
    (function = .send → ¬ Receiving (k'.procTable p) ∧
      (k'.procTable p).hasIntMsg = (k.procTable p).hasIntMsg) ∧
    (function = .receive → Receiving (k'.procTable p) →
      (k'.procTable p).hasIntMsg = (k.procTable p).hasIntMsg) := by
  obtain ⟨src, k₁, -, ho, rfl⟩ := sendrec_ok h
  cases ho with
  | send d k₁ hne _ ho =>
    refine ⟨fun _ => ?_, fun hf => (by cases hf)⟩
    cases ho with
    | handOff dst => simp [handOff_procTable, hne.symm, Receiving, hp]
    | queueUp last => simp [queueUp_procTable, Receiving, hp, sending, receiving]
  | receive srcDest k₁ ho =>
    refine ⟨fun hf => (by cases hf), fun _ hr => ?_⟩
    cases ho with
    | takeInterrupt => simp [takeInterrupt, Receiving, hp] at hr
    | takeFrom s prev a => simp [takeFrom_procTable]
    | waitFor => simp [waitFor]

/-- What the others do does not make the task wait, and takes no pending interrupt from it. -/
theorem step_task {k k' : Kernel} {a : Act} (h : Step k a k') (ha : a.ofTty = false) :
    (Receiving (k'.procTable taskTty) → Receiving (k.procTable taskTty)) ∧
      (k'.procTable taskTty).hasIntMsg = (k.procTable taskTty).hasIntMsg := by
  rcases step_cases h with ⟨p, function, srcDest, m, rfl, hp, hs⟩ | ⟨t, rfl, hs⟩ | ⟨mem, rfl, rfl⟩
  · have hne : taskTty ≠ p := by simpa [Act.ofTty, eq_comm] using ha
    obtain ⟨src, k₁, -, ho, rfl⟩ := sendrec_ok hs
    cases ho with
    | send d k₁ _ _ ho =>
      cases ho with
      | handOff dst _ _ _ hf _ =>
        rcases eq_or_ne taskTty d with rfl | hd
        · simp at hf
          simp [handOff_procTable, Receiving, hf]
        · simp [handOff_procTable, hd, Receiving]
      | queueUp last => simp [queueUp_procTable, hne, Receiving]
    | receive srcDest k₁ ho =>
      cases ho with
      | takeInterrupt => simp [takeInterrupt, hne]
      | takeFrom s prev a _ _ _ hf =>
        rcases eq_or_ne taskTty s with rfl | hd
        · simp at hf
          simp [takeFrom_procTable, Receiving, hf]
        · simp [takeFrom_procTable, hd, Receiving]
      | waitFor => simp [waitFor, hne]
  · have hne : taskTty ≠ t := by simpa [Act.ofTty, eq_comm] using ha
    have ho := informInt_ok hs
    cases ho with
    | wake => simp [wake, hne]
    | pend => simp [pend, hne]
  · exact ⟨id, rfl⟩

namespace TtySys

variable {stack : TtyStack} {s s' : TtySys} {tty : Minor}

/-- What the scan codes and their interrupts are kept in stays as it is. -/
structure Keeps (s s' : TtySys) : Prop where
  kbIn : s'.kbIn = s.kbIn
  keyPressed : s'.keyPressed = s.keyPressed
  screen : s'.nrCurrentConsole = s.nrCurrentConsole
  task : s'.kernel.procTable = s.kernel.procTable

theorem Keeps.refl (s : TtySys) : s.Keeps s := ⟨rfl, rfl, rfl, rfl⟩

theorem Keeps.trans {s₁ s₂ s₃ : TtySys} (h : s₁.Keeps s₂) (h' : s₂.Keeps s₃) : s₁.Keeps s₃ :=
  ⟨h'.kbIn.trans h.kbIn, h'.keyPressed.trans h.keyPressed, h'.screen.trans h.screen,
    h'.task.trans h.task⟩

theorem Keeps.seen_iff (h : s.Keeps s') : s'.Seen ↔ s.Seen := by
  simp [Seen, TtySys.task, h.kbIn, h.keyPressed, h.task]

theorem Keeps.go (h : s.Keeps s') (place : TtyPlace) : s.Keeps (s'.go place) :=
  ⟨h.kbIn, h.keyPressed, h.screen, h.task⟩

theorem Keeps.setMem (h : s.Keeps s') (mem : Mem) : s.Keeps (s'.setMem mem) :=
  ⟨h.kbIn, h.keyPressed, h.screen, h.task⟩

theorem Keeps.ttyTable (h : s.Keeps s') (t : Minor → Tty) : s.Keeps { s' with ttyTable := t } :=
  ⟨h.kbIn, h.keyPressed, h.screen, h.task⟩

/-- A character leaves the task in `tty_dev_write`, or on its way to the reader and back to it. -/
def Writing (tty : Minor) (place : TtyPlace) : Prop :=
  place = .write tty ∨ ∃ dest m, place = .send dest m (some tty)

theorem emit_keeps (stack : TtyStack) (h : Writing tty s.place) (e : TtyEvent) :
    s.Keeps (s.emit stack tty e) ∧ Writing tty (s.emit stack tty e).place := by
  cases e with
  | outChar => exact ⟨.refl s, h⟩
  | store la ch => exact ⟨(Keeps.refl s).setMem _, h⟩
  | resume caller procNr cnt => exact ⟨((Keeps.refl s).setMem _).go _, .inr ⟨_, _, rfl⟩⟩

theorem foldl_emit_keeps (stack : TtyStack) : ∀ (ev : List TtyEvent) {s : TtySys},
    Writing tty s.place →
    s.Keeps (ev.foldl (emit stack tty) s) ∧ Writing tty (ev.foldl (emit stack tty) s).place
  | [], s, h => ⟨.refl s, h⟩
  | e :: ev, s, h => by
    obtain ⟨hk, hw⟩ := emit_keeps stack h e
    obtain ⟨hk', hw'⟩ := foldl_emit_keeps stack ev hw
    exact ⟨hk.trans hk', hw'⟩

theorem writeChar_keeps (hp : s.place = .write tty) (h : s.writeChar stack tty = .ok s') :
    s.Keeps s' ∧ Writing tty s'.place := by
  simp only [writeChar, bind_eq_ok, Except.ok.injEq] at h
  obtain ⟨⟨t, ev⟩, -, rfl⟩ := h
  have hp' : Writing tty { s with ttyTable := Function.update s.ttyTable tty t }.place := .inl hp
  obtain ⟨hk, hw⟩ := foldl_emit_keeps stack ev hp'
  exact ⟨((Keeps.refl s).ttyTable _).trans hk, hw⟩

/-- A message is answered, or the loop over the terminals starts again. -/
theorem dispatch_place (h : s.dispatch stack = .ok s') :
    s'.kernel.procTable = s.kernel.procTable ∧
      (s'.place = .read 0 ∨ ∃ dest m, s'.place = .send dest m none) := by
  simp only [dispatch, assert_bind_eq_ok] at h
  obtain ⟨-, h⟩ := h
  split_ifs at h
  · obtain rfl := Except.ok.inj h
    exact ⟨rfl, .inr ⟨_, _, rfl⟩⟩
  · simp only [bind_eq_ok, Except.ok.injEq] at h
    obtain ⟨_, -, _, -, _, -, rfl⟩ := h
    exact ⟨rfl, .inr ⟨_, _, rfl⟩⟩
  · simp only [bind_eq_ok, Except.ok.injEq] at h
    obtain ⟨_, -, _, -, _, -, rfl⟩ := h
    exact ⟨rfl, .inr ⟨_, _, rfl⟩⟩
  · obtain rfl := Except.ok.inj h
    exact ⟨rfl, .inl rfl⟩
  · obtain rfl := Except.ok.inj h
    exact ⟨rfl, .inl rfl⟩

/-! ## What is stranded -/

@[simp] theorem go_place (s : TtySys) (place : TtyPlace) : (s.go place).place = place := rfl

@[simp] theorem go_screen (s : TtySys) (place : TtyPlace) :
    (s.go place).nrCurrentConsole = s.nrCurrentConsole := rfl

@[simp] theorem go_task (s : TtySys) (place : TtyPlace) : (s.go place).task = s.task := rfl

@[simp] theorem go_seen (s : TtySys) (place : TtyPlace) : (s.go place).Seen ↔ s.Seen := .rfl

theorem passed_writing {place : TtyPlace} (h : s.Keeps s') (hw : Writing tty place) :
    s'.Passed place ↔ s.nrCurrentConsole ≤ tty := by
  rcases hw with rfl | ⟨dest, m, rfl⟩ <;> simp [Passed, h.screen]

/-- A key reaches the terminals only. -/
theorem endKey_keeps (s : TtySys) (tty : Minor) (scanCode : Byte) (codeWithE0 : Bool) :
    (s.endKey tty scanCode codeWithE0).keyPressed = s.keyPressed ∧
    (s.endKey tty scanCode codeWithE0).kernel = s.kernel := by
  unfold endKey
  split <;> simp

theorem endKey_kbIn (s : TtySys) (tty : Minor) (scanCode : Byte) (codeWithE0 : Bool)
    (kbIn : KbInput) : { s with kbIn }.endKey tty scanCode codeWithE0 =
      { s.endKey tty scanCode codeWithE0 with kbIn } := by
  unfold endKey
  dsimp only
  split <;> rfl

/-- With its last code a key is taken out of the buffer. -/
theorem followed_iff {screen : Minor} (hk : s'.keyPressed = s.keyPressed)
    (ht : s'.task = s.task) : ¬ s.Followed tty screen ↔
      screen ≤ tty ∧ ¬ { s' with kbIn := (getByteFromKbuf s.kbIn).2 }.Seen := by
  have hc : s.kbIn.count ≤ 1 ↔ (getByteFromKbuf s.kbIn).2.count = 0 := Nat.sub_eq_zero_iff_le.symm
  have ht' : s'.kernel.procTable taskTty = s.kernel.procTable taskTty := ht
  simp [Followed, Seen, TtySys.task, hc, hk, ht']

theorem seen_kernel {k : Kernel}
    (hi : (k.procTable taskTty).hasIntMsg = (s.kernel.procTable taskTty).hasIntMsg) :
    { s with kernel := k }.Seen ↔ s.Seen := by
  simp [Seen, TtySys.task, hi]

theorem scan_stranded {sc : Scan} (hp : s.place = .scan tty sc) :
    (s.scan tty sc).Stranded ↔ ¬ ∀ e ∈ s.keyEnds, s.Followed e.1 e.2 := by
  simp only [keyEnds, hp]
  unfold scan
  split_ifs with h0
  · have hf : ∀ screen, s.Followed tty screen := fun _ => .inr (.inl (by omega))
    simp only [Stranded, hp, Passed, false_and, false_iff, not_not]
    split <;> simp [hf]
  · cases hb : scanByte sc (getByteFromKbuf s.kbIn).1 with
    | more sc => simp [hb, Stranded, Passed]
    | key scanCode codeWithE0 =>
      obtain ⟨hkp, hkern⟩ := endKey_keeps s tty scanCode codeWithE0
      have ht := congrArg (fun k : Kernel => k.procTable taskTty) hkern
      simp only [hb, endKey_kbIn, Stranded, go_place, Passed, go_screen, go_seen,
        Option.mem_some_iff, forall_eq']
      exact (followed_iff hkp ht).symm
    | special =>
      simp only [hb, Stranded, go_place, Passed, go_screen, go_seen, Option.mem_some_iff,
        forall_eq']
      exact (followed_iff rfl rfl).symm

/-- A step of the task leaves codes stranded if they were, until it gets a message, and if it takes
the last code of a key that is not followed as it should be. -/
theorem taskTtyStep_stranded (h : s.Regular) (hrun : s.task.pFlags = 0)
    (hs : s.taskTtyStep stack = .ok s') :
    s'.Stranded ↔ s.Stranded ∧ (s'.place = .received → Receiving s'.task) ∨
      ¬ ∀ e ∈ s.keyEnds, s.Followed e.1 e.2 := by
  have hr : ¬ Receiving s.task := not_receiving_of_runs hrun
  unfold taskTtyStep at hs
  cases hp : s.place with
  | read tty =>
    rw [hp] at hs
    dsimp only at hs
    split_ifs at hs with hc
    · obtain rfl := Except.ok.inj hs
      simp [Stranded, hp, Passed, keyEnds, hc.1]
    · obtain rfl := Except.ok.inj hs
      have hle : ¬ s.Seen → (s.nrCurrentConsole ≤ tty ↔ s.nrCurrentConsole < tty) := by
        intro hseen
        refine ⟨fun hle => lt_of_le_of_ne hle fun heq => hseen (.inl ?_), le_of_lt⟩
        exact by_contra fun h0 => hc ⟨heq.symm, Nat.pos_of_ne_zero h0⟩
      simp only [Stranded, go_place, go_seen, hp, Passed, go_screen]
      rw [and_congr_left hle]
      simp [keyEnds, hp]
  | scan tty sc =>
    rw [hp] at hs
    obtain rfl := Except.ok.inj hs
    rw [scan_stranded hp]
    simp [Stranded, hp, Passed]
  | write tty =>
    rw [hp] at hs
    dsimp only at hs
    split_ifs at hs with hc
    · obtain ⟨hkeep, hw⟩ := writeChar_keeps hp hs
      have hne : s'.place ≠ .received := by
        rcases hw with hw | ⟨dest, m, hw⟩ <;> simp [hw]
      rw [Stranded, Stranded, hkeep.seen_iff, passed_writing hkeep hw]
      simp [hp, Passed, keyEnds, hne]
    · obtain rfl := Except.ok.inj hs
      simp [Stranded, hp, Passed, keyEnds]
  | again tty =>
    rw [hp] at hs
    dsimp only at hs
    rw [if_neg (not_not.2 (h.written tty hp))] at hs
    split_ifs at hs with hnext
    · obtain rfl := Except.ok.inj hs
      have hlt : s.nrCurrentConsole < ⟨tty.val + 1, hnext⟩ ↔ s.nrCurrentConsole ≤ tty :=
        Nat.lt_succ_iff
      simp [Stranded, hp, Passed, keyEnds, hlt]
    · obtain rfl := Except.ok.inj hs
      have hle : s.nrCurrentConsole ≤ tty := by
        have := s.nrCurrentConsole.isLt
        exact Fin.le_def.2 (by omega)
      simp [Stranded, hp, Passed, keyEnds, hle]
  | send dest m back =>
    rw [hp] at hs
    obtain ⟨k, hk, hs⟩ := bind_eq_ok.1 hs
    obtain ⟨hr', hi⟩ := (sendrec_task hrun hk).1 rfl
    cases back with
    | none =>
      obtain rfl : { s with kernel := k }.go (.read 0) = s' := Except.ok.inj hs
      simp [Stranded, hp, Passed, keyEnds]
    | some tty =>
      obtain rfl : { s with kernel := k }.go (.write tty) = s' := Except.ok.inj hs
      simp only [Stranded, go_place, go_seen, seen_kernel hi]
      simp [hp, Passed, keyEnds]
  | receive =>
    rw [hp] at hs
    obtain ⟨k, hk, hs⟩ := bind_eq_ok.1 hs
    obtain rfl : { s with kernel := k }.go .received = s' := Except.ok.inj hs
    have hi := (sendrec_task hrun hk).2 rfl
    have hst : ({ s with kernel := k }.go .received).Stranded ↔
        Receiving ({ s with kernel := k }.go .received).task ∧ ¬ s.Seen :=
      and_congr_right fun hr' => not_congr (seen_kernel (hi hr'))
    rw [hst]
    simp [Stranded, hp, Passed, keyEnds, and_comm]
  | received =>
    rw [hp] at hs
    obtain ⟨ht, hplace⟩ := dispatch_place hs
    have hr' : ¬ s.Passed s.place := by rwa [hp]
    rcases hplace with hplace | ⟨dest, m, hplace⟩ <;>
      simp [Stranded, hplace, Passed, keyEnds, hp, hr]

theorem Regular.of_runs (hr : ¬ Receiving s.task) (hp : ∀ tty, s.place ≠ .again tty) :
    s.Regular :=
  ⟨fun hr' => absurd hr' hr, fun tty h => absurd h (hp tty)⟩

theorem scan_regular {sc : Scan} (hp : s.place = .scan tty sc) (hr : ¬ Receiving s.task) :
    (s.scan tty sc).Regular := by
  unfold scan
  split_ifs with h0
  · exact .of_runs hr (by simp [hp])
  · cases hb : scanByte sc (getByteFromKbuf s.kbIn).1 with
    | more sc =>
      simp only [hb]
      exact .of_runs hr (by simp)
    | key scanCode codeWithE0 =>
      simp only [hb]
      refine .of_runs ?_ (by simp)
      rwa [go_task, TtySys.task, (endKey_keeps _ _ _ _).2]
    | special =>
      simp only [hb]
      exact .of_runs hr (by simp)

theorem taskTtyStep_regular (hrun : s.task.pFlags = 0) (hs : s.taskTtyStep stack = .ok s') :
    s'.Regular := by
  have hr : ¬ Receiving s.task := not_receiving_of_runs hrun
  unfold taskTtyStep at hs
  cases hp : s.place with
  | read tty =>
    rw [hp] at hs
    dsimp only at hs
    split_ifs at hs
    all_goals
      obtain rfl := Except.ok.inj hs
      exact .of_runs hr (by simp)
  | scan tty sc =>
    rw [hp] at hs
    obtain rfl := Except.ok.inj hs
    exact scan_regular hp hr
  | write tty =>
    rw [hp] at hs
    dsimp only at hs
    split_ifs at hs with hc
    · obtain ⟨hkeep, hw⟩ := writeChar_keeps hp hs
      refine .of_runs (by rwa [TtySys.task, hkeep.task]) ?_
      rcases hw with hw | ⟨dest, m, hw⟩ <;> simp [hw]
    · obtain rfl := Except.ok.inj hs
      refine ⟨fun hr' => absurd hr' hr, fun tty' h => ?_⟩
      obtain rfl : tty = tty' := by simpa using h
      exact not_not.1 hc
  | again tty =>
    rw [hp] at hs
    dsimp only at hs
    split_ifs at hs
    all_goals
      obtain rfl := Except.ok.inj hs
      exact .of_runs hr (by simp)
  | send dest m back =>
    rw [hp] at hs
    obtain ⟨k, hk, hs⟩ := bind_eq_ok.1 hs
    obtain rfl := Except.ok.inj hs
    refine .of_runs ((sendrec_task hrun hk).1 rfl).1 ?_
    cases back <;> simp
  | receive =>
    rw [hp] at hs
    obtain ⟨k, hk, hs⟩ := bind_eq_ok.1 hs
    obtain rfl := Except.ok.inj hs
    exact ⟨fun _ => rfl, by simp⟩
  | received =>
    rw [hp] at hs
    obtain ⟨ht, hplace⟩ := dispatch_place hs
    refine .of_runs (by rwa [TtySys.task, ht]) ?_
    rcases hplace with hplace | ⟨dest, m, hplace⟩ <;> simp [hplace]

/-- What happens beside the task leaves it where it is, waiting or woken. -/
structure Beside (s s' : TtySys) : Prop where
  place : s'.place = s.place
  ttyTable : s'.ttyTable = s.ttyTable
  screen : s'.nrCurrentConsole = s.nrCurrentConsole
  waits : Receiving s'.task → Receiving s.task

theorem Beside.regular (h : s.Beside s') (hs : s.Regular) : s'.Regular where
  waits hr := h.place.trans (hs.waits (h.waits hr))
  written tty hp := by
    rw [h.ttyTable]
    exact hs.written tty (h.place ▸ hp)

theorem Beside.passed_iff (h : s.Beside s') (place : TtyPlace) :
    s'.Passed place ↔ s.Passed place ∧ (place = .received → Receiving s'.task) := by
  cases place with
  | send dest m back => cases back <;> simp [Passed, h.screen]
  | received => simpa [Passed] using h.waits
  | _ => simp [Passed, h.screen]

theorem Beside.stranded_iff (h : s.Beside s') (hs : s'.Seen ↔ s.Seen) :
    s'.Stranded ↔ s.Stranded ∧ (s'.place = .received → Receiving s'.task) := by
  rw [Stranded, Stranded, hs, h.place, h.passed_iff, and_right_comm]

end TtySys

variable {stack : TtyStack} {s s' : TtySys}

/-- The interrupts and the other processes. Of what the task has to hear of, only the keyboard
changes anything. -/
theorem beside_of_step {a : TtySysAct} (ha : a ≠ .tty) (hs : TtySysStep stack s a s') :
    s.Beside s' ∧ (s'.Seen ↔ s.Seen ∨ ∃ scanCode, a = .keyboard scanCode) := by
  cases a with
  | keyboard scanCode =>
    obtain rfl := Option.some.inj hs
    exact ⟨⟨rfl, rfl, rfl, id⟩, by simp [TtySys.Seen]⟩
  | clock =>
    have hc := toOption_eq_some.1 hs
    unfold TtySys.clockHandler at hc
    split_ifs at hc with hk
    · obtain ⟨k, hi, hc⟩ := bind_eq_ok.1 hc
      obtain rfl := Except.ok.inj hc
      refine ⟨⟨rfl, rfl, rfl, fun hr => ?_⟩, by simp [TtySys.Seen, hk]⟩
      have ho := informInt_ok hi
      cases ho with
      | wake ha => exact ha.1
      | pend => simpa [TtySys.task, pend, Receiving] using hr
    · obtain rfl := Except.ok.inj hc
      exact ⟨⟨rfl, rfl, rfl, id⟩, by simp⟩
  | kernel a =>
    simp only [TtySysStep, ttySysStep] at hs
    split_ifs at hs with ha
    obtain ⟨k, hstep, rfl⟩ := Option.map_eq_some_iff.1 hs
    obtain ⟨hr, hi⟩ := step_task hstep (by simpa using ha)
    exact ⟨⟨rfl, rfl, rfl, hr⟩, by simp [TtySys.seen_kernel hi]⟩
  | tty => exact absurd rfl ha

theorem tty_step (hs : TtySysStep stack s .tty s') :
    s.task.pFlags = 0 ∧ s.taskTtyStep stack = .ok s' := by
  simp only [TtySysStep, ttySysStep] at hs
  split_ifs at hs with hrun
  exact ⟨hrun, toOption_eq_some.1 hs⟩

theorem regular_step {a : TtySysAct} (h : s.Regular) (hs : TtySysStep stack s a s') :
    s'.Regular := by
  by_cases ha : a = .tty
  · subst ha
    obtain ⟨hrun, hs⟩ := tty_step hs
    exact TtySys.taskTtyStep_regular hrun hs
  · exact (beside_of_step ha hs).1.regular h

/-- A step leaves codes stranded if they were, until a key or a message comes, and if it takes the
last code of a key that is not followed as it should be. -/
theorem stranded_step {a : TtySysAct} (h : s.Regular) (hs : TtySysStep stack s a s') :
    s'.Stranded ↔ (s.Stranded ∧ (∀ scanCode, a ≠ .keyboard scanCode) ∧
      (s'.place = .received → Receiving s'.task)) ∨ ¬ KeysFollowed s a := by
  by_cases ha : a = .tty
  · subst ha
    obtain ⟨hrun, hs⟩ := tty_step hs
    simpa [KeysFollowed] using TtySys.taskTtyStep_stranded h hrun hs
  · obtain ⟨hbeside, hseen⟩ := beside_of_step ha hs
    have hk : KeysFollowed s a := by
      cases a with
      | tty => exact absurd rfl ha
      | _ => trivial
    by_cases hkey : ∃ scanCode, a = .keyboard scanCode
    · have hs' : ¬ s'.Stranded := fun h => h.2 (hseen.2 (.inr hkey))
      simp only [hs', hk, not_true, or_false, false_iff]
      exact fun h => hkey.elim h.2.1
    · rw [hbeside.stranded_iff (by simpa [hkey] using hseen)]
      simp [hk, not_exists.1 hkey]

/-- Codes that are stranded stay so until a key or a message comes. -/
theorem stranded_run {l : List TtySysAct} {s₁ : TtySys} (hreg : s₁.Regular) (hst : s₁.Stranded)
    (h : Run (· = s₁) (fun s a s' => TtySysStep stack s a s' ∧
      (∀ scanCode, a ≠ .keyboard scanCode) ∧ (s'.place = .received → Receiving s'.task)) l s) :
    s.Regular ∧ s.Stranded := by
  refine h.invariant (P := fun _ s => s.Regular ∧ s.Stranded) ?_ ?_
  · rintro _ rfl
    exact ⟨hreg, hst⟩
  · intro _ s a s' ⟨hreg, hst⟩ ⟨hs, hkey, hwait⟩
    exact ⟨regular_step hreg hs, (stranded_step hreg hs).2 (.inl ⟨hst, hkey, hwait⟩)⟩

theorem regular_start (h : TtySysStart s) : s.Regular ∧ ¬ s.Stranded := by
  obtain ⟨mem, limit, rfl⟩ := h
  exact ⟨.of_runs (not_receiving_of_runs rfl) (by simp [initTtySys]), fun h => h.2 (.inl rfl)⟩

/-- In every run in which the task takes the last code of a key only where what is behind it will be
read without a further key, it has emptied the buffer whenever it waits for a message and there is
neither an interrupt nor `key_pressed`. A further step leaves codes stranded just where it does not
meet the condition. -/
theorem buffer_empty_when_waiting {l : List TtySysAct}
    (h : Run TtySysStart (fun s a s' => TtySysStep stack s a s' ∧ KeysFollowed s a) l s) :
    (Receiving s.task → s.task.hasIntMsg = false → s.keyPressed = false → s.kbIn.count = 0) ∧
      ∀ a s', TtySysStep stack s a s' → (¬ s'.Stranded ↔ KeysFollowed s a) := by
  have hinv : s.Regular ∧ ¬ s.Stranded := by
    refine h.invariant (P := fun _ s => s.Regular ∧ ¬ s.Stranded) ?_ ?_
    · exact fun s h => regular_start h
    · intro _ s a s' ⟨hreg, hst⟩ ⟨hs, hk⟩
      refine ⟨regular_step hreg hs, ?_⟩
      rw [stranded_step hreg hs]
      simp [hst, hk]
  obtain ⟨hreg, hst⟩ := hinv
  constructor
  · intro hr hi hk
    by_contra hc
    refine hst ⟨?_, by simp [TtySys.Seen, hc, hk, hi]⟩
    rw [hreg.waits hr]
    exact hr
  · intro a s' hs
    rw [stranded_step hreg hs]
    simp [hst]

/-- Two messages on a stack. -/
def twoMsgs : TtyStack := ⟨0x1000, 0x1100⟩

/-- An `a` is pressed while the task waits, and read. -/
theorem buffer_empty_one_key : ∃ s l,
    Run TtySysStart (fun s a s' => TtySysStep twoMsgs s a s' ∧ KeysFollowed s a) l s ∧
    Receiving s.task ∧ s.kbIn.tail = 1 ∧ s.kbIn.count = 0 ∧
      ∀ a s', TtySysStep twoMsgs s a s' → (¬ s'.Stranded ↔ KeysFollowed s a) := by
  have hany : (Run.exec (fun s a => if KeysFollowed s a then ttySysStep twoMsgs s a else none)
      (initTtySys (fun _ => 0) 0)
      (List.replicate 10 .tty ++ [.keyboard 0x1E, .clock] ++ List.replicate 13 .tty)).any
      (fun s => Receiving s.task ∧ s.task.hasIntMsg = false ∧ s.keyPressed = false ∧
        s.kbIn.tail = 1) = true := by decide
  obtain ⟨s, hs, hp⟩ := (Option.any_eq_true _ _).1 hany
  obtain ⟨hr, hi, hk, htail⟩ := of_decide_eq_true hp
  have hrun : Run TtySysStart (fun s a s' => TtySysStep twoMsgs s a s' ∧ KeysFollowed s a) _ s :=
    (Run.of_exec (.start ⟨_, _, rfl⟩) hs).mono fun s a s' hs => by
      split_ifs at hs with hok
      exact ⟨hs, hok⟩
  obtain ⟨hempty, hnext⟩ := buffer_empty_when_waiting hrun
  exact ⟨s, _, hrun, hr, htail, hempty hr hi hk, hnext⟩

/-- An `a` is pressed and let go while the task waits. It reads the first of the two codes and waits
for another key. -/
theorem key_stranded : ∃ s l, Run TtySysStart (TtySysStep twoMsgs) l s ∧
    Receiving s.task ∧ s.task.pRecvfrom = any ∧ s.task.hasIntMsg = false ∧ s.keyPressed = false ∧
      s.kbIn.count = 1 := by
  have hany : (Run.exec (ttySysStep twoMsgs) (initTtySys (fun _ => 0) 0)
      (List.replicate 10 .tty ++ [.keyboard 0x1E, .keyboard 0x9E, .clock] ++
        List.replicate 13 .tty)).any
      (fun s => Receiving s.task ∧ s.task.pRecvfrom = any ∧ s.task.hasIntMsg = false ∧
        s.keyPressed = false ∧ s.kbIn.count = 1) = true := by decide
  obtain ⟨s, hs, hp⟩ := (Option.any_eq_true _ _).1 hany
  exact ⟨s, _, Run.of_exec (.start ⟨_, _, rfl⟩) hs, of_decide_eq_true hp⟩

end MyOS
