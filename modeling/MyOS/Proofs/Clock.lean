import MyOS.Clock
import MyOS.Lib.Scan
import Mathlib.Data.Int.ModEq
import Mathlib.Data.Nat.Find

/-!
# Waits and the reset of the clock

The ticks since `t` times 1000 is what the loop computes with, in 32 bits. Where the clock has been
reset it is `MAX_TICKS` short, and 1000 times that is little less than a multiple of `2 ^ 32`: the
wait seems to be over 215 seconds too early.
-/

namespace MyOS

/-! ## The ticks of a run -/

theorem charge_ticks (s : Sched) : s.charge.ticks = s.ticks := by
  unfold Sched.charge
  split_ifs <;> rfl

theorem clockHandler_ticks (s : Sched) (reenter wakes : Bool) :
    (s.clockHandler reenter wakes).ticks = nextTicks s.ticks := by
  have hcharge : ({ s with ticks := nextTicks s.ticks } : Sched).charge.ticks = nextTicks s.ticks :=
    charge_ticks _
  unfold nextTicks at hcharge ⊢
  unfold Sched.clockHandler
  dsimp only
  generalize Sched.charge _ = s₁ at hcharge ⊢
  split_ifs at hcharge ⊢ <;> exact hcharge

/-- No other step touches the ticks. -/
theorem schedStep_ticks {s s' : Sched} {a : SchedAct} (h : SchedStep s a s') :
    s'.ticks = if a.isClock then nextTicks s.ticks else s.ticks := by
  cases a with
  | clock reenter wakes charged =>
    simp only [SchedStep, schedStep, Option.ite_none_right_eq_some] at h
    rw [← Option.some.inj h.2]
    exact clockHandler_ticks s reenter wakes
  | advance =>
    simp only [SchedStep, schedStep] at h
    unfold Sched.advance Sched.give at h
    split at h
    · cases h
    all_goals
      split_ifs at h <;> rw [← Option.some.inj h] <;> rfl
  | block p =>
    simp only [SchedStep, schedStep, Option.ite_none_right_eq_some] at h
    rw [← Option.some.inj h.2]
    rfl
  | flags p pFlags =>
    rw [← Option.some.inj h]
    rfl
  | fork child parent =>
    simp only [SchedStep, schedStep, Option.ite_none_right_eq_some] at h
    rw [← Option.some.inj h.2]
    rfl

theorem nextTicks_emod (x : Int) : nextTicks (x % maxTicks) = (x + 1) % maxTicks := by
  unfold nextTicks maxTicks
  split_ifs <;> omega

/-- The ticks count what the clock has done, round and round. -/
theorem ticks_of_run {s₀ s : Sched} {acts : List SchedAct} (h0 : 0 ≤ s₀.ticks)
    (hlt : s₀.ticks < maxTicks) (h : Run (· = s₀) SchedStep acts s) :
    s.ticks = (s₀.ticks + acts.countP SchedAct.isClock) % maxTicks := by
  refine h.invariant (P := fun acts s =>
    s.ticks = (s₀.ticks + acts.countP SchedAct.isClock) % maxTicks) ?_ ?_
  · rintro s rfl
    rw [List.countP_nil, Int.natCast_zero, Int.add_zero, Int.emod_eq_of_lt h0 hlt]
  · intro acts s a s' hs hstep
    rw [schedStep_ticks hstep, List.countP_cons]
    split_ifs
    · rw [hs, nextTicks_emod, Int.natCast_add, Int.natCast_one, Int.add_assoc]
    · exact hs

/-! ## What a reading tells -/

/-- What `1000 * MAX_TICKS` lacks of a multiple of `2 ^ 32`. -/
def resetGain : ℕ := 21555000

/-- The number that is divided, `e` ticks after `t`, but for multiples of `2 ^ 32`. -/
def product (t : Int) (e : ℕ) : ℕ := if t + e < maxTicks then 1000 * e else 1000 * e + resetGain

/-- What the loop takes for the milliseconds since `t`. -/
def counted (t : Int) (e : ℕ) : Int := ((product t e : Int).bmod (2 ^ 32)).tdiv 100

theorem waited_toInt {t : Int} {e : ℕ} (h0 : 0 ≤ t) (hlt : t < maxTicks) (he : e ≤ maxTicks) :
    (waited (BitVec.ofInt 32 ((t + e) % maxTicks)) (BitVec.ofInt 32 t)).toInt = counted t e := by
  have hthousand : (1000 : BitVec 32).toInt = 1000 := by decide
  have hhz : hz.toInt = 100 := by decide
  have hprod : ((t + e) % maxTicks - t) * 1000 =
      product t e + (2 ^ 32 : ℕ) * (if t + e < maxTicks then 0 else -500) := by
    unfold product resetGain
    unfold maxTicks at he hlt ⊢
    split_ifs <;> omega
  rw [waited, BitVec.toInt_sdiv_of_ne_or_ne _ _ (.inr (by decide)), hhz, BitVec.toInt_mul,
    BitVec.toInt_sub, BitVec.toInt_ofInt, BitVec.toInt_ofInt, hthousand, Int.bmod_sub_bmod,
    Int.sub_bmod_bmod, Int.bmod_mul_bmod, hprod, Int.add_mul_bmod_self_left]
  rfl

theorem counted_of_lt {t : Int} {e : ℕ} (h : product t e < 2 ^ 31) :
    counted t e = product t e / 100 := by
  unfold counted
  rw [Int.bmod_eq_of_le (by omega) (by omega), Int.tdiv_eq_ediv_of_nonneg (by omega)]

theorem counted_neg {t : Int} {e : ℕ} (h : 2 ^ 31 ≤ product t e) (hlt : product t e < 2 ^ 32 - 99) :
    counted t e < 0 := by
  have hmod : (product t e : Int).bmod (2 ^ 32) = -(2 ^ 32 - product t e) := by
    rw [Int.bmod_def]
    split_ifs <;> omega
  unfold counted
  rw [hmod, Int.neg_tdiv, Int.tdiv_eq_ediv_of_nonneg (by omega)]
  omega

/-- However long it waits, it never counts more than this. -/
theorem counted_le (t : Int) (e : ℕ) : counted t e ≤ 21474836 := by
  have hlt : (product t e : Int).bmod (2 ^ 32) < 2 ^ 31 := by
    rw [Int.bmod_def]
    split_ifs <;> omega
  unfold counted
  generalize (product t e : Int).bmod (2 ^ 32) = x at hlt ⊢
  rcases Int.le_total 0 x with hx | hx
  · rw [Int.tdiv_eq_ediv_of_nonneg hx]
    omega
  · obtain ⟨y, rfl⟩ : ∃ y, x = -y := ⟨-x, (Int.neg_neg x).symm⟩
    rw [Int.neg_tdiv, Int.tdiv_eq_ediv_of_nonneg (by omega)]
    omega

/-! ## Waits that end on time -/

/-- The number of ticks in which a time passes. -/
def ticksFor (timeout : BitVec 32) : ℕ := (timeout.toNat + 9) / 10

/-- The clock is not reset before the tick at which the time is up, and what is divided there is
below `2 ^ 31`. -/
def OnTime (t : Int) (timeout : BitVec 32) : Prop :=
  t + ticksFor timeout < maxTicks ∧ 1000 * ticksFor timeout < 2 ^ 31 ∨
    t + ticksFor timeout = maxTicks ∧ 1000 * ticksFor timeout + resetGain < 2 ^ 31

instance (t : Int) (timeout : BitVec 32) : Decidable (OnTime t timeout) :=
  inferInstanceAs (Decidable (_ ∨ _))

section Timeout

variable {t : Int} {timeout : BitVec 32} {e : ℕ}

/-- The time is not up before so many ticks. -/
theorem lt_ticksFor_iff (hms : 0 ≤ timeout.toInt) :
    e < ticksFor timeout ↔ 10 * (e : Int) < timeout.toInt := by
  have hint : timeout.toInt = timeout.toNat := BitVec.toInt_eq_toNat_of_lt (by
    have := BitVec.toInt_pos_iff.1 hms
    omega)
  rw [hint, ticksFor]
  omega

theorem ticksFor_le (hms : 0 ≤ timeout.toInt) : ticksFor timeout ≤ 214748365 := by
  have hlt : timeout.toInt < 2 ^ 31 := BitVec.toInt_lt
  by_contra hbig
  have := (lt_ticksFor_iff hms).1 (not_le.1 hbig)
  omega

/-- Before the time is up the clock has not been reset. -/
theorem OnTime.counted_lt (h : OnTime t timeout) (hms : 0 ≤ timeout.toInt)
    (he : e < ticksFor timeout) : counted t e < timeout.toInt := by
  have hlast := (lt_ticksFor_iff hms).1 he
  have hprod : product t e = 1000 * e := if_pos (by rcases h with ⟨h, -⟩ | ⟨h, -⟩ <;> omega)
  have hlt : product t e < 2 ^ 31 := by
    rw [hprod]
    rcases h with ⟨-, h⟩ | ⟨-, h⟩ <;> omega
  rw [counted_of_lt hlt, hprod]
  omega

theorem OnTime.le_counted (h : OnTime t timeout) (hms : 0 ≤ timeout.toInt)
    (he : ticksFor timeout ≤ e) (hfirst : e ≤ ticksFor timeout ∨ e ≤ 1 ∧ ticksFor timeout = 0) :
    timeout.toInt ≤ counted t e := by
  have hup : timeout.toInt ≤ 10 * (e : Int) := not_lt.1 <| mt (lt_ticksFor_iff hms).2 he.not_gt
  have hle : 1000 * e ≤ product t e := by
    unfold product
    split_ifs <;> omega
  have hlt : product t e < 2 ^ 31 := by
    unfold OnTime at h
    unfold product
    unfold resetGain at h ⊢
    split_ifs <;> omega
  rw [counted_of_lt hlt]
  omega

/-- A wait that sees its end at the right tick, and not at the one before. -/
theorem onTime_of_counted (hlt : t < maxTicks) (hms : 0 ≤ timeout.toInt)
    (hat : 0 < ticksFor timeout → timeout.toInt ≤ counted t (ticksFor timeout))
    (hbefore : ∀ e, 1 ≤ e → e + 1 = ticksFor timeout → counted t e < timeout.toInt) :
    OnTime t timeout := by
  rcases Nat.eq_zero_or_pos (ticksFor timeout) with hz | hpos
  · exact .inl ⟨by omega, by omega⟩
  obtain ⟨e, he⟩ : ∃ e, e + 1 = ticksFor timeout := ⟨_, Nat.sub_add_cancel hpos⟩
  have hlast := (lt_ticksFor_iff hms).1 (show e < ticksFor timeout by omega)
  have hup := mt (lt_ticksFor_iff hms).2 (lt_irrefl (ticksFor timeout))
  have hend := hat hpos
  have hmost := counted_le t (ticksFor timeout)
  -- so the product is no more than that of the greatest time that can be counted
  have hbound : product t (ticksFor timeout) < 2 ^ 32 - 99 := by
    unfold product resetGain
    split_ifs <;> omega
  have hprod : product t (ticksFor timeout) < 2 ^ 31 := by
    by_contra hbig
    have := counted_neg (not_lt.1 hbig) hbound
    omega
  rcases lt_trichotomy (t + ticksFor timeout) maxTicks with hl | heq | hgt
  · rw [product, if_pos hl] at hprod
    exact .inl ⟨hl, hprod⟩
  · rw [product, if_neg (by omega)] at hprod
    exact .inr ⟨heq, hprod⟩
  · -- the clock was reset at the tick before, or earlier
    exfalso
    have hearly := hbefore e (by omega) he
    rw [product, if_neg (by omega)] at hprod
    have hprod' : product t e = 1000 * e + resetGain := if_neg (by omega)
    rw [counted_of_lt (by omega), hprod'] at hearly
    unfold resetGain at hearly
    omega

end Timeout

/-! ## The loop -/

/-- What a turn decides. -/
def timedTurn (t timeout : BitVec 32) (g : ℕ → BitVec 32) (ready : ℕ → Bool) (i : ℕ) :
    Option (Bool × ℕ) :=
  if (waited (g i) t).slt timeout then if ready i then some (true, i) else none
  else some (false, i)

section Loop

variable {t timeout : BitVec 32} {g : ℕ → BitVec 32} {ready : ℕ → Bool} {n i j : ℕ} {b : Bool}

theorem timedTurn_eq_some : timedTurn t timeout g ready i = some (b, j) ↔ i = j ∧
    if b then (waited (g i) t).toInt < timeout.toInt ∧ ready i = true
      else timeout.toInt ≤ (waited (g i) t).toInt := by
  simp only [timedTurn, BitVec.slt_iff_toInt_lt]
  rcases lt_or_ge (waited (g i) t).toInt timeout.toInt with hlt | hge
  · cases hready : ready i <;> cases b <;> simp [hlt]
  · cases b <;> simp [hge, not_lt.2 hge]

theorem timedTurn_eq_none : timedTurn t timeout g ready i = none ↔
    (waited (g i) t).toInt < timeout.toInt ∧ ready i = false := by
  simp only [timedTurn, BitVec.slt_iff_toInt_lt]
  rcases lt_or_ge (waited (g i) t).toInt timeout.toInt with hlt | hge
  · cases ready i <;> simp [hlt]
  · simp [not_lt.2 hge]

theorem timedLoop_eq_first : ∀ n i, timedLoop t timeout g ready n i =
    (Scan.first (timedTurn t timeout g ready) i n).elim (.error .spin) .ok
  | 0, _ => rfl
  | n + 1, i => by
    rw [timedLoop, Scan.first_succ, timedTurn]
    split_ifs
    · rfl
    · exact timedLoop_eq_first n (i + 1)
    · rfl

theorem timedLoop_eq_ok : timedLoop t timeout g ready n i = .ok (b, j) ↔ i ≤ j ∧ j < i + n ∧
    (if b then (waited (g j) t).toInt < timeout.toInt ∧ ready j = true
      else timeout.toInt ≤ (waited (g j) t).toInt) ∧
    ∀ m, i ≤ m → m < j → (waited (g m) t).toInt < timeout.toInt ∧ ready m = false := by
  have hfirst : timedLoop t timeout g ready n i = .ok (b, j) ↔
      Scan.first (timedTurn t timeout g ready) i n = some (b, j) := by
    rw [timedLoop_eq_first]
    cases Scan.first (timedTurn t timeout g ready) i n <;> simp
  simp only [hfirst, Scan.first_eq_some, timedTurn_eq_some, timedTurn_eq_none]
  constructor
  · rintro ⟨k, hik, hk, ⟨rfl, hend⟩, hbefore⟩
    exact ⟨hik, hk, hend, hbefore⟩
  · rintro ⟨hij, hj, hend, hbefore⟩
    exact ⟨j, hij, hj, ⟨rfl, hend⟩, hbefore⟩

end Loop

/-! ## The readings -/

namespace Readings

variable {s₀ : Sched} {ss : ℕ → Sched} {r : ℕ → ℕ}

theorem waited_eq (h : Readings s₀ ss r) (h0 : 0 ≤ s₀.ticks) (hlt : s₀.ticks < maxTicks) {i : ℕ}
    (hi : r i ≤ maxTicks) :
    (waited (getTicks ss i) (getTicks ss 0)).toInt = counted s₀.ticks (r i) := by
  have hticks (i : ℕ) : (ss i).ticks = (s₀.ticks + r i) % maxTicks := by
    obtain ⟨acts, hrun, hcount⟩ := h.run i
    rw [← hcount]
    exact ticks_of_run h0 hlt hrun
  have hfirst : (ss 0).ticks = s₀.ticks := by
    rw [hticks, h.first, Int.natCast_zero, Int.add_zero, Int.emod_eq_of_lt h0 hlt]
  rw [getTicks, getTicks, hfirst, hticks]
  exact waited_toInt h0 hlt hi

/-- There is a reading after each number of ticks. -/
theorem exists_eq (h : Readings s₀ ss r) (e : ℕ) : ∃ i, r i = e := by
  have hex := h.unbounded e
  refine ⟨Nat.find hex, le_antisymm ?_ (Nat.find_spec hex)⟩
  rcases Nat.eq_zero_or_pos (Nat.find hex) with hz | hpos
  · rw [hz, h.first]
    exact Nat.zero_le e
  · have hprev := Nat.find_min hex (Nat.sub_lt hpos Nat.one_pos)
    have hstep := h.each (Nat.find hex - 1)
    rw [Nat.sub_add_cancel hpos] at hstep
    omega

end Readings

/-- A wait as the code makes it, which ends at the reading at which it is to end. -/
def EndsTimely (r : ℕ → ℕ) (timeout : BitVec 32) (ready : ℕ → Bool)
    (wait : ℕ → Except Fault (Bool × ℕ)) : Prop :=
  ∃ b i, Timely r timeout ready b i ∧ ∃ m, ∀ n ≥ m, wait n = .ok (b, i)

section Waits

variable {s₀ : Sched} {ss : ℕ → Sched} {r : ℕ → ℕ} {timeout : BitVec 32} {ready : ℕ → Bool}

/-- Where the wait is to end, the time is up, if it is, for the first time. -/
theorem Timely.le_ticksFor (h : Readings s₀ ss r) (hms : 0 ≤ timeout.toInt) {b : Bool} {i : ℕ}
    (ht : Timely r timeout ready b i) :
    r i ≤ ticksFor timeout ∨ r i ≤ 1 ∧ ticksFor timeout = 0 := by
  obtain ⟨j, rfl⟩ := Nat.exists_eq_add_of_le' ht.pos
  have hstep := h.each j
  rcases Nat.eq_zero_or_pos j with rfl | hj
  · rw [h.first] at hstep
    rcases Nat.eq_zero_or_pos (ticksFor timeout) with hz | hpos
    · exact .inr ⟨hstep, hz⟩
    · exact .inl (hstep.trans hpos)
  · have hlt := (lt_ticksFor_iff hms).2 (ht.before j hj (Nat.lt_succ_self j)).1
    exact .inl (by omega)

/-- There is always a reading at which the wait is to end. -/
theorem Readings.exists_timely (h : Readings s₀ ss r) (timeout : BitVec 32) (ready : ℕ → Bool) :
    ∃ b i, Timely r timeout ready b i := by
  have hex : ∃ i, 1 ≤ i ∧ (timeout.toInt ≤ 10 * (r i : Int) ∨ ready i = true) := by
    obtain ⟨i, hi⟩ := h.unbounded (timeout.toInt.toNat + 1)
    refine ⟨i, Nat.pos_of_ne_zero ?_, .inl (by omega)⟩
    rintro rfl
    rw [h.first] at hi
    omega
  obtain ⟨hpos, hend⟩ := Nat.find_spec hex
  refine ⟨decide (10 * (r (Nat.find hex) : Int) < timeout.toInt), Nat.find hex, hpos, ?_, ?_⟩
  · intro j hj hlt
    have hnot := Nat.find_min hex hlt
    refine ⟨not_le.1 fun hup => hnot ⟨hj, .inl hup⟩, ?_⟩
    rw [← Bool.not_eq_true]
    exact fun hready => hnot ⟨hj, .inr hready⟩
  · by_cases hup : 10 * (r (Nat.find hex) : Int) < timeout.toInt
    · rw [if_pos (decide_eq_true hup)]
      exact ⟨hup, hend.resolve_left (not_le.2 hup)⟩
    · rw [if_neg (by simpa using hup)]
      exact not_lt.1 hup

theorem endsTimely_of_onTime (h : Readings s₀ ss r) (h0 : 0 ≤ s₀.ticks)
    (hlt : s₀.ticks < maxTicks) (hms : 0 ≤ timeout.toInt) (hon : OnTime s₀.ticks timeout) :
    EndsTimely r timeout ready fun n =>
      timedLoop (getTicks ss 0) timeout (getTicks ss) ready n 1 := by
  have hmax : maxTicks = 0x7FFFABCD := rfl
  have hmost := ticksFor_le hms
  have hbelow {j : ℕ} (hj : 10 * (r j : Int) < timeout.toInt) :
      (waited (getTicks ss j) (getTicks ss 0)).toInt < timeout.toInt := by
    have hticks := (lt_ticksFor_iff hms).2 hj
    rw [h.waited_eq h0 hlt (by omega)]
    exact hon.counted_lt hms hticks
  obtain ⟨b, i, ht⟩ := h.exists_timely timeout ready
  refine ⟨b, i, ht, i, fun n hn => timedLoop_eq_ok.2 ⟨ht.pos, by omega, ?_, fun m hm hmi => ?_⟩⟩
  · have hend := ht.ends
    cases b with
    | true => exact ⟨hbelow hend.1, hend.2⟩
    | false =>
      have hfirst := ht.le_ticksFor h hms
      have hup : ticksFor timeout ≤ r i := not_lt.1 fun hl =>
        absurd ((lt_ticksFor_iff hms).1 hl) (not_lt.2 hend)
      have hcounted := hon.le_counted hms hup hfirst
      rwa [← h.waited_eq h0 hlt (by omega)] at hcounted
  · exact ⟨hbelow (ht.before m hm hmi).1, (ht.before m hm hmi).2⟩

theorem onTime_of_endsTimely (h : Readings s₀ ss r) (h0 : 0 ≤ s₀.ticks)
    (hlt : s₀.ticks < maxTicks) (hms : 0 ≤ timeout.toInt)
    (hbusy : ∀ i, 10 * (r i : Int) < timeout.toInt → ready i = false)
    (hends : EndsTimely r timeout ready fun n =>
      timedLoop (getTicks ss 0) timeout (getTicks ss) ready n 1) : OnTime s₀.ticks timeout := by
  have hmax : maxTicks = 0x7FFFABCD := rfl
  have hmost := ticksFor_le hms
  obtain ⟨b, i, ht, m, hm⟩ := hends
  obtain ⟨-, -, hend, hbefore⟩ := timedLoop_eq_ok.1 (hm m le_rfl)
  have hup := ht.ends
  cases b with
  | true =>
    rw [if_pos rfl, hbusy i (by exact hup.1)] at hup
    exact absurd hup.2 Bool.false_ne_true
  | false =>
    have hfirst := ht.le_ticksFor h hms
    have hticks : ticksFor timeout ≤ r i := not_lt.1 fun hl =>
      absurd ((lt_ticksFor_iff hms).1 hl) (not_lt.2 hup)
    refine onTime_of_counted hlt hms (fun hpos => ?_) fun e he hlast => ?_
    · have heq : r i = ticksFor timeout := by omega
      rw [← heq, ← h.waited_eq h0 hlt (by omega)]
      exact hend
    · obtain ⟨j, rfl⟩ := h.exists_eq e
      have hj : 1 ≤ j := by
        refine Nat.pos_of_ne_zero ?_
        rintro rfl
        rw [h.first] at he
        omega
      have hji : j < i := not_le.1 fun hij => by
        have := monotone_nat_of_le_succ h.mono hij
        omega
      rw [← h.waited_eq h0 hlt (by omega)]
      exact (hbefore j hj hji).1

/-- Both waits end at the first tick at which their time has passed just when the clock is not reset
before and the product has not wrapped; then `waitfor` also sees what it waits for in time. -/
theorem timed_waits_iff (h : Readings s₀ ss r) (h0 : 0 ≤ s₀.ticks) (hlt : s₀.ticks < maxTicks)
    (hms : 0 ≤ timeout.toInt) :
    (EndsTimely r timeout (fun _ => false) (fun n => milliDelay (getTicks ss) n timeout) ↔
      OnTime s₀.ticks timeout) ∧
    ∀ (inByte : ℕ → BitVec 8) (mask val : BitVec 32),
      (OnTime s₀.ticks timeout →
        EndsTimely r timeout (fun i => (inByte i).setWidth 32 &&& mask = val) fun n =>
          waitfor (getTicks ss) inByte n mask val timeout) ∧
      ((∀ i, 10 * (r i : Int) < timeout.toInt → (inByte i).setWidth 32 &&& mask ≠ val) →
        EndsTimely r timeout (fun i => (inByte i).setWidth 32 &&& mask = val) (fun n =>
          waitfor (getTicks ss) inByte n mask val timeout) → OnTime s₀.ticks timeout) := by
  refine ⟨⟨fun hends => ?_, fun hon => ?_⟩, fun inByte mask val => ⟨fun hon => ?_, ?_⟩⟩
  · exact onTime_of_endsTimely h h0 hlt hms (fun _ _ => rfl) hends
  · exact endsTimely_of_onTime h h0 hlt hms hon
  · exact endsTimely_of_onTime h h0 hlt hms hon
  · intro hbusy hends
    exact onTime_of_endsTimely h h0 hlt hms (fun i hi => decide_eq_false (hbusy i hi)) hends

end Waits

/-- A kernel in which nothing happens but the clock. -/
def idleSched (ticks : Int) : Sched := ⟨fun _ => ⟨0, 0, 0⟩, 0, ticks, .idle⟩

/-- Its states, one for each tick. -/
def tickedFrom (ticks : Int) : ℕ → Sched
  | 0 => idleSched ticks
  | n + 1 => (tickedFrom ticks n).clockHandler true false

theorem tickedFrom_readings (ticks : Int) : Readings (idleSched ticks) (tickedFrom ticks) id := by
  refine ⟨fun i => ?_, rfl, fun i => Nat.le_succ i, fun i => le_rfl, fun e => ⟨e, le_rfl⟩⟩
  induction i with
  | zero => exact ⟨[], .start rfl, rfl⟩
  | succ i ih =>
    obtain ⟨acts, hrun, hcount⟩ := ih
    refine ⟨.clock true false (tickedFrom ticks i).charged :: acts, .snoc hrun ?_, ?_⟩
    · exact if_pos ⟨rfl, fun _ => rfl⟩
    · rw [List.countP_cons, hcount]
      rfl

/-- A wait of 100 ms from the fifth tick on. -/
theorem timed_waits_iff_100 :
    (EndsTimely id 100 (fun _ => false) (fun n => milliDelay (getTicks (tickedFrom 5)) n 100) ↔
      OnTime (idleSched 5).ticks 100) ∧
    ∀ (inByte : ℕ → BitVec 8) (mask val : BitVec 32),
      (OnTime (idleSched 5).ticks 100 →
        EndsTimely id 100 (fun i => (inByte i).setWidth 32 &&& mask = val) fun n =>
          waitfor (getTicks (tickedFrom 5)) inByte n mask val 100) ∧
      ((∀ i : ℕ, 10 * (id i : Int) < (100 : BitVec 32).toInt →
          (inByte i).setWidth 32 &&& mask ≠ val) →
        EndsTimely id 100 (fun i => (inByte i).setWidth 32 &&& mask = val) (fun n =>
          waitfor (getTicks (tickedFrom 5)) inByte n mask val 100) →
        OnTime (idleSched 5).ticks 100) := by
  have h0 : 0 ≤ (idleSched 5).ticks := by decide
  have hlt : (idleSched 5).ticks < maxTicks := by decide
  have hms : 0 ≤ (100 : BitVec 32).toInt := by decide
  exact timed_waits_iff (tickedFrom_readings 5) h0 hlt hms

/-- The clock is reset at the first tick of a wait of 100 ms, and ends it. -/
theorem reset_ends_wait : Readings (idleSched (maxTicks - 1)) (tickedFrom (maxTicks - 1)) id ∧
    milliDelay (getTicks (tickedFrom (maxTicks - 1))) 1 100 = .ok (false, 1) ∧
    ¬ EndsTimely id 100 (fun _ => false) fun n =>
      milliDelay (getTicks (tickedFrom (maxTicks - 1))) n 100 := by
  refine ⟨tickedFrom_readings _, by decide +kernel, fun hends => ?_⟩
  have h0 : 0 ≤ (idleSched (maxTicks - 1)).ticks := by decide
  have hlt : (idleSched (maxTicks - 1)).ticks < maxTicks := by decide
  have hms : 0 ≤ (100 : BitVec 32).toInt := by decide
  have hon : OnTime (idleSched (maxTicks - 1)).ticks 100 :=
    onTime_of_endsTimely (tickedFrom_readings _) h0 hlt hms (fun _ _ => rfl) hends
  exact absurd hon (by decide)

end MyOS
