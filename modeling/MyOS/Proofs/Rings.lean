import MyOS.Rings

/-!
# The rings are queues

The producer and the consumer of a ring move a pointer each, and the counter both. Whatever the
order of their steps, the values taken out are the first of those put in.
-/

namespace MyOS

open Memory

variable {α : Type} {n : ℕ} {r r' : RingBuf α} {t : List (RingBuf.Event α)} {v : α}

/-! ## Steps -/

theorem ringPut_eq (h : RingBuf.Fifo n t r) (v : α) : ringPut n r v =
    .ok (if r.count < n then r.push n v else r) := by
  obtain ⟨l, hl, -⟩ := h
  unfold ringPut
  rw [if_pos hl.head_lt]
  split_ifs <;> rfl

theorem ringGet_eq (h : RingBuf.Fifo n t r) : ringGet n r = .ok (r.cell r.tail, r.pop n) := by
  obtain ⟨l, hl, -⟩ := h
  exact if_pos hl.tail

theorem push_ne (v : α) : r.push n v ≠ r := fun h => by
  have := congrArg RingBuf.count h
  simp only [RingBuf.push] at this
  omega

/-- A value is accepted where there is room. -/
theorem accepts_iff (h : RingBuf.Fifo n t r) {get : RingBuf α → Except Fault (α × RingBuf α)} :
    (∃ r', RingStep (ringPut n) get r (.accepted v) r') ↔ r.count < n := by
  simp only [RingStep, ringPut_eq h, Except.ok.injEq]
  constructor
  · rintro ⟨r', rfl, hc⟩
    by_contra hfull
    rw [if_neg hfull] at hc
    omega
  · intro hroom
    exact ⟨_, if_pos hroom, rfl⟩

theorem drops_iff (h : RingBuf.Fifo n t r) {get : RingBuf α → Except Fault (α × RingBuf α)} :
    (∃ r', RingStep (ringPut n) get r (.dropped v) r') ↔ r.count = n := by
  obtain ⟨l, hl, -⟩ := id h
  have hle : r.count ≤ n := by
    have := hl.count
    have := hl.room
    omega
  simp only [RingStep, ringPut_eq h, Except.ok.injEq]
  constructor
  · rintro ⟨r', hput, rfl⟩
    by_contra hne
    rw [if_pos (by omega)] at hput
    exact push_ne v hput
  · intro hfull
    exact ⟨r, if_neg (by omega), rfl⟩

theorem fifo_step {e : RingBuf.Event α} (h : RingBuf.Fifo n t r)
    (hs : RingStep (ringPut n) (ringGet n) r e r') : RingBuf.Fifo n (e :: t) r' := by
  cases e with
  | accepted v =>
    obtain ⟨hput, hc⟩ := hs
    have hroom := (@accepts_iff _ _ _ _ _ h (ringGet n)).1 ⟨r', hput, hc⟩
    rw [ringPut_eq h, if_pos hroom] at hput
    obtain rfl := Except.ok.inj hput
    exact h.accept hroom v
  | dropped v =>
    obtain ⟨-, rfl⟩ := hs
    exact h.drop v
  | taken v =>
    obtain ⟨hsome, hget⟩ := hs
    rw [ringGet_eq h] at hget
    simp only [Except.ok.injEq, Prod.mk.injEq] at hget
    obtain ⟨rfl, rfl⟩ := hget
    exact h.take hsome

theorem fifo_run (hn : 0 < n)
    (hr : Run RingStart (RingStep (ringPut n) (ringGet n)) t r) : RingBuf.Fifo n t r := by
  refine hr.invariant ?_ fun _ _ _ _ h hs => fifo_step h hs
  rintro _ ⟨cell, rfl⟩
  exact .start hn

/-! ## Queues -/

/-- What is promised of a ring of `n` cells after the steps `t`. -/
structure QueueOf (n : ℕ) (step : RingBuf α → RingBuf.Event α → RingBuf α → Prop)
    (t : List (RingBuf.Event α)) (r : RingBuf α) : Prop where
  count_nonneg : 0 ≤ r.count
  count_le : r.count ≤ n
  head_lt : r.head < n
  tail_lt : r.tail < n
  head : (r.head : Int) = (r.tail + r.count) % n
  taken : RingBuf.taken t <+: RingBuf.accepted t
  held : ((RingBuf.accepted t).length : Int) = (RingBuf.taken t).length + r.count
  accepts : ∀ v, (∃ r', step r (.accepted v) r') ↔ r.count < n
  drops : ∀ v, (∃ r', step r (.dropped v) r') ↔ r.count = n

theorem queueOf (h : RingBuf.Fifo n t r) : QueueOf n (RingStep (ringPut n) (ringGet n)) t r := by
  obtain ⟨l, hl, ht⟩ := id h
  have hcount := hl.count
  have hroom := hl.room
  refine ⟨by omega, by omega, hl.head_lt, hl.tail, ?_, h.taken_prefix, ?_,
    fun v => accepts_iff h, fun v => drops_iff h⟩
  · rw [hl.head, hcount]
    rfl
  · rw [ht, List.length_append, hcount]
    omega

/-- In every order of the steps of their producers and consumers, the ring of the scan codes and
that of a terminal are bounded queues. -/
theorem rings_fifo :
    (∀ t r, KbRun t r →
      QueueOf kbInBytes (RingStep ByPtr.keyboardHandler ByPtr.getByteFromKbuf) t r) ∧
    ∀ t r, KeyRun t r → QueueOf ttyInBytes (RingStep ByPtr.putKey ByPtr.nextKey) t r :=
  ⟨fun _ _ h => queueOf (fifo_run (by decide) h),
    fun _ _ h => queueOf (fifo_run (by decide) h)⟩

/-- A ring is filled, -/
def fills [Zero α] (n : ℕ) : List (RingBuf.Event α) := List.replicate n (.accepted 0)

theorem fills_ok {n : ℕ} (hn : 0 < n) [Zero α] : ∀ m ≤ n, ∃ r : RingBuf α,
    Run RingStart (RingStep (ringPut n) (ringGet n)) (fills m) r ∧ r.count = m
  | 0, _ => ⟨⟨fun _ => 0, 0, 0, 0⟩, .start ⟨_, rfl⟩, rfl⟩
  | m + 1, hm => by
    obtain ⟨r, hrun, hcount⟩ := fills_ok hn m (by omega)
    obtain ⟨r', hput, hcount'⟩ := ((queueOf (fifo_run hn hrun)).accepts 0).2 (by omega)
    exact ⟨r', .snoc hrun ⟨hput, hcount'⟩, by omega⟩

/-- a value too many is dropped, the first one is taken, and there is room for another where the
buffer starts again. -/
theorem wraps_ok {n : ℕ} (hn : 0 < n) [Zero α] (a b : α) : ∃ v r,
    Run RingStart (RingStep (ringPut n) (ringGet n))
      (.accepted b :: .taken v :: .dropped a :: fills n) r := by
  obtain ⟨r, hrun, hcount⟩ := fills_ok (α := α) hn n le_rfl
  obtain ⟨r₁, hdrop⟩ := ((queueOf (fifo_run hn hrun)).drops a).2 hcount
  have hrun₁ := hrun.snoc hdrop
  obtain ⟨-, rfl⟩ := id hdrop
  have hq := queueOf (fifo_run hn hrun₁)
  have htake : RingStep (ringPut n) (ringGet n) r₁ (.taken (r₁.cell r₁.tail)) (r₁.pop n) :=
    ⟨by omega, if_pos hq.tail_lt⟩
  have hrun₂ := hrun₁.snoc htake
  obtain ⟨r₃, hput⟩ := ((queueOf (fifo_run hn hrun₂)).accepts b).2 (by
    show r₁.count - 1 < n
    omega)
  exact ⟨_, r₃, hrun₂.snoc hput⟩

theorem rings_fifo_wraps :
    (∃ v r, KbRun (.accepted 0x30 :: .taken v :: .dropped 0x1E :: fills kbInBytes) r ∧
      QueueOf kbInBytes (RingStep ByPtr.keyboardHandler ByPtr.getByteFromKbuf)
        (.accepted 0x30 :: .taken v :: .dropped 0x1E :: fills kbInBytes) r) ∧
    ∃ v r, KeyRun (.accepted 0x62 :: .taken v :: .dropped 0x61 :: fills ttyInBytes) r ∧
      QueueOf ttyInBytes (RingStep ByPtr.putKey ByPtr.nextKey)
        (.accepted 0x62 :: .taken v :: .dropped 0x61 :: fills ttyInBytes) r := by
  obtain ⟨v, r, hrun⟩ := wraps_ok (n := kbInBytes) (by decide) (0x1E : Byte) 0x30
  obtain ⟨w, r', hrun'⟩ := wraps_ok (n := ttyInBytes) (by decide) (0x61 : BitVec 32) 0x62
  exact ⟨⟨v, r, hrun, rings_fifo.1 _ _ hrun⟩, w, r', hrun', rings_fifo.2 _ _ hrun'⟩

/-! ## The rings of the terminal task -/

theorem ringPut_ofFin [NeZero n] [Zero α] (buf : Fin n → α) (head tail : Fin n) (count : ℕ)
    (v : α) :
    ringPut n (.ofFin buf head tail count) v = .ok (if count < n
      then .ofFin (Function.update buf head v) (head + 1) tail (count + 1)
      else .ofFin buf head tail count) := by
  rw [← RingBuf.ofFin_push]
  unfold ringPut
  rw [if_pos (show (RingBuf.ofFin buf head tail count).head < n from head.isLt)]
  have hcount : (RingBuf.ofFin buf head tail count).count < n ↔ count < n := Int.ofNat_lt
  by_cases hroom : count < n
  · rw [if_pos hroom, if_pos (hcount.2 hroom)]
  · rw [if_neg hroom, if_neg (mt hcount.1 hroom)]

theorem ringGet_ofFin [NeZero n] [Zero α] (buf : Fin n → α) (head tail : Fin n) {count : ℕ}
    (hc : 0 < count) : ringGet n (.ofFin buf head tail count) =
      .ok (buf tail, .ofFin buf head (tail + 1) (count - 1)) := by
  rw [← RingBuf.ofFin_pop buf head tail hc]
  exact (if_pos tail.isLt).trans (by rw [← RingBuf.ofFin_cell buf head tail count]; rfl)

/-- The pointers of the rings move as the indices of the terminal task do. -/
theorem ring_keyboardHandler (kb : KbInput) (scanCode : Byte) :
    ByPtr.keyboardHandler kb.ring scanCode = .ok (keyboardHandler kb scanCode).ring := by
  refine (ringPut_ofFin (n := 32) _ _ _ _ _).trans (congrArg _ ?_)
  unfold keyboardHandler
  by_cases h : kb.count < 32
  · rw [if_pos h, if_pos (show kb.count < kbInBytes from h)]
    rfl
  · rw [if_neg h, if_neg (show ¬ kb.count < kbInBytes from h)]
    rfl

theorem ring_getByteFromKbuf (kb : KbInput) (h : 0 < kb.count) :
    ByPtr.getByteFromKbuf kb.ring =
      .ok ((getByteFromKbuf kb).1, (getByteFromKbuf kb).2.ring) :=
  ringGet_ofFin (n := 32) _ _ _ h

theorem ring_putKey (t : Tty) (key : BitVec 32) :
    ByPtr.putKey t.ring key = .ok (putKey t key).ring := by
  refine (ringPut_ofFin (n := 256) _ _ _ _ _).trans (congrArg _ ?_)
  unfold putKey
  by_cases h : t.inbufCount < 256
  · rw [if_pos h, if_pos (show t.inbufCount < ttyInBytes from h)]
    rfl
  · rw [if_neg h, if_neg (show ¬ t.inbufCount < ttyInBytes from h)]
    rfl

/-- The character is the low byte of the key. -/
theorem ring_nextChar (t : Tty) (h : 0 < t.inbufCount) : ∃ key,
    ByPtr.nextKey t.ring = .ok (key, (nextChar t).2.ring) ∧ (nextChar t).1 = key.setWidth 8 :=
  ⟨_, ringGet_ofFin (n := 256) _ _ _ h, rfl⟩

end MyOS
