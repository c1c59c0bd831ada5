import MyOS.Proofs.Ipc

/-!
# Every message arrives once

Where each process keeps its messages in memory of its own, the messages copied from a sender are
the messages of its `SEND` calls, in their order and to their destinations, but for the one it is
blocked in; each carries the sender's number. A `HARD_INT` message has an `inform_int` of its own.
-/

namespace MyOS

open Memory Pointer

def Blocked (x : Proc) : Prop := Sending x ∨ Receiving x

instance (x : Proc) : Decidable (Blocked x) := inferInstanceAs (Decidable (_ ∨ _))

/-- A step that leaves the messages of others alone: every caller of `sendrec` passes a `MESSAGE`
of its own, and a process that computes does not write to the message another is sending. -/
def Private (k : Kernel) : Act → Prop
  | .sendrec _ _ _ m => ∀ q, Blocked (k.procTable q) →
      Apart m Message.size (k.procTable q).pMsg Message.size
  | .informInt _ => True
  | .user mem => ∀ s, Sending (k.procTable s) →
      Message.load mem (k.procTable s).pMsg = Message.load k.mem (k.procTable s).pMsg

def PrivateStep (k : Kernel) (a : Act) (k' : Kernel) : Prop := Step k a k' ∧ Private k a

/-- The `SEND` calls of a process, newest first: destination and message. -/
def sent (s : Slot) : List Event → List (Slot × Message)
  | [] => []
  | .call s' d m :: l => if s' = s then (d, m) :: sent s l else sent s l
  | _ :: l => sent s l

/-- The messages copied from a process, newest first. -/
def delivered (s : Slot) : List Event → List (Slot × Message)
  | [] => []
  | .copied s' d m :: l => if s' = s then (d, m) :: delivered s l else delivered s l
  | _ :: l => delivered s l

/-- `inform_int` was called for `t` since its last `HARD_INT` message. -/
def Announced (t : Slot) : List Event → Prop
  | [] => False
  | .informed t' :: l => t' = t ∨ Announced t l
  | .hardInt t' _ :: l => t' ≠ t ∧ Announced t l
  | _ :: l => Announced t l

/-- Every `HARD_INT` message of the log had an interrupt announced. -/
def AllAnnounced : List Event → Prop
  | [] => True
  | .hardInt t m :: l => m.source = BitVec.ofInt 32 interrupt ∧ m.type = MsgType.hardInt.code ∧
      Announced t l ∧ AllAnnounced l
  | _ :: l => AllAnnounced l

/-- Between the steps of a run each `SEND` call has been answered by one copy, but for the call a
process is blocked in, whose message is in its buffer. -/
structure Delivery (k : Kernel) : Prop where
  native : ∀ q : Slot, nrTasks + nrNativeProcs ≤ q.val → (k.procTable q).pFlags = freeSlot
  apart : ∀ q r, q ≠ r → Blocked (k.procTable q) → Blocked (k.procTable r) →
    Apart (k.procTable q).pMsg Message.size (k.procTable r).pMsg Message.size
  done : ∀ s, ¬ Sending (k.procTable s) → sent s k.log = delivered s k.log
  pending : ∀ s d, SendsTo k s d →
    sent s k.log = (d, Message.load k.mem (k.procTable s).pMsg) :: delivered s k.log
  source : ∀ s, ∀ c ∈ sent s k.log, c.2.source = BitVec.ofInt 32 (proc2pid s)
  announced : ∀ t, (k.procTable t).hasIntMsg = true → Announced t k.log
  interrupts : AllAnnounced k.log

/-- In a native process an address is what it is. -/
theorem Delivery.va2la {k : Kernel} (h : Delivery k) {p : Slot} {va la : Addr}
    (hp : (k.procTable p).pFlags ≠ freeSlot) (hv : va2la k p va = .ok la) : la = va := by
  have hn : p.val < nrTasks + nrNativeProcs := by
    by_contra hn
    exact hp (h.native p (by omega))
  unfold MyOS.va2la at hv
  rw [if_pos hn, assert_bind_eq_ok] at hv
  exact (Except.ok.inj hv.2).symm.trans hv.1

theorem takeFrom_mem (k : Kernel) (p s : Slot) (prev : Option Slot) (dst src : Addr) :
    (takeFrom k p s prev dst src).mem = memcpy k.mem dst src Message.size := by
  cases prev <;> simp only [takeFrom, unlinkFrom, copy, Kernel.set_mem]

namespace Delivery

variable {k k' : Kernel}

/-- The process that traps has its number written into its message. -/
theorem stamp (h : Delivery k) {p : Slot} {m : Addr} (hm : ∀ q, Blocked (k.procTable q) →
    Apart m Message.size (k.procTable q).pMsg Message.size) : Delivery (stamp k p m) := by
  refine ⟨h.native, h.apart, h.done, fun s d hs => ?_, h.source, h.announced, h.interrupts⟩
  have hl : Message.load (MyOS.stamp k p m).mem (k.procTable s).pMsg =
      Message.load k.mem (k.procTable s).pMsg :=
    Message.load_setSource_apart (hm s (.inl hs.1)).symm
  rw [stamp_procTable, hl]
  exact h.pending s d hs

/-- A message handed over: it is copied into the buffer of its destination. -/
theorem handOff (h : Delivery k) {s d : Slot} {m : Addr} (hs : ¬ Sending (k.procTable s))
    (hm : ∀ q, Blocked (k.procTable q) → Apart m Message.size (k.procTable q).pMsg Message.size)
    (hsrc : (Message.load k.mem m).source = BitVec.ofInt 32 (proc2pid s))
    (hd : (k.procTable d).pFlags = receiving) :
    Delivery (handOff (k.note (.call s d (Message.load k.mem m))) s d (k.procTable d).pMsg m) := by
  have hrd : Receiving (k.procTable d) := by rw [Receiving, hd]; decide
  have hnd : ¬ Sending (k.procTable d) := by rw [Sending, hd]; decide
  have hdm := (hm d (.inr hrd)).symm
  have hflags (q : Slot) (hq : Blocked ((MyOS.handOff (k.note (.call s d
      (Message.load k.mem m))) s d (k.procTable d).pMsg m).procTable q)) : q ≠ d := by
    rintro rfl
    simp only [Blocked, Sending, Receiving, handOff_procTable, if_pos, Kernel.note_procTable,
      hd] at hq
    exact absurd hq (by decide)
  have hlog : (MyOS.handOff (k.note (.call s d (Message.load k.mem m))) s d (k.procTable d).pMsg
      m).log = .copied s d (Message.load k.mem m) :: .call s d (Message.load k.mem m) :: k.log := by
    simp only [MyOS.handOff, copy, Kernel.set_log, Kernel.note_mem, Kernel.note_log,
      Message.load_memcpy hdm]
  have hmem : (MyOS.handOff (k.note (.call s d (Message.load k.mem m))) s d (k.procTable d).pMsg
      m).mem = memcpy k.mem (k.procTable d).pMsg m Message.size := by
    simp only [MyOS.handOff, copy, Kernel.set_mem, Kernel.note_mem]
  refine ⟨fun q hq => ?_, fun q r hqr hq hr => ?_, fun a ha => ?_, fun a e hae => ?_,
    fun a c hc => ?_, fun t ht => ?_, ?_⟩
  · have hqd : q ≠ d := by
      rintro rfl
      rw [h.native q hq] at hd
      exact absurd hd (by decide)
    simp only [handOff_procTable, if_neg hqd]
    exact h.native q hq
  · have hqd := hflags q hq
    have hrd := hflags r hr
    simp only [Blocked, Sending, Receiving, handOff_procTable, if_neg hqd, if_neg hrd] at hq hr ⊢
    exact h.apart q r hqr hq hr
  · rw [hlog]
    have hna : ¬ Sending (k.procTable a) := by
      rcases eq_or_ne a d with rfl | had
      · exact hnd
      · simpa only [Sending, handOff_procTable, Kernel.note_procTable, if_neg had] using ha
    simp only [sent, delivered, h.done a hna]
  · have had := hflags a (.inl hae.1)
    simp only [SendsTo, handOff_procTable, if_neg had] at hae
    have has : s ≠ a := by
      rintro rfl
      exact hs hae.1
    have hl : Message.load (memcpy k.mem (k.procTable d).pMsg m Message.size)
        (k.procTable a).pMsg = Message.load k.mem (k.procTable a).pMsg :=
      Message.load_memcpy_apart hdm (h.apart a d had (.inl hae.1) (.inr hrd))
    simp only [hlog, hmem, sent, delivered, handOff_procTable, Kernel.note_procTable, if_neg has,
      if_neg had, hl]
    exact h.pending a e hae
  · rw [hlog] at hc
    simp only [sent] at hc
    split_ifs at hc with has
    · subst has
      rcases List.mem_cons.1 hc with rfl | hc
      · exact hsrc
      · exact h.source s c hc
    · exact h.source a c hc
  · rw [hlog]
    simp only [handOff_procTable] at ht
    exact h.announced t ht
  · rw [hlog]
    exact h.interrupts

theorem queueUp (h : Delivery k) {s d : Slot} {m : Addr} {last : Option Slot}
    (hs : (k.procTable s).pFlags = 0)
    (hm : ∀ q, Blocked (k.procTable q) → Apart m Message.size (k.procTable q).pMsg Message.size)
    (hsrc : (Message.load k.mem m).source = BitVec.ofInt 32 (proc2pid s)) :
    Delivery (queueUp (k.note (.call s d (Message.load k.mem m))) s d m last) := by
  have hns := not_sending_of_runs hs
  have hlog : (MyOS.queueUp (k.note (.call s d (Message.load k.mem m))) s d m last).log =
      .call s d (Message.load k.mem m) :: k.log := by cases last <;> rfl
  have hmem : (MyOS.queueUp (k.note (.call s d (Message.load k.mem m))) s d m last).mem =
      k.mem := by
    cases last <;> rfl
  have hss : ¬ ((k.procTable s).pFlags ||| sending) &&& sending = 0 := by rw [hs]; decide
  refine ⟨fun q hq => ?_, fun q r hqr hq hr => ?_, fun a ha => ?_, fun a e hae => ?_,
    fun a c hc => ?_, fun t ht => ?_, ?_⟩
  · have hqs : q ≠ s := by
      rintro rfl
      rw [h.native q hq] at hs
      exact absurd hs (by decide)
    simp only [queueUp_procTable, if_neg hqs]
    exact h.native q hq
  · simp only [Blocked, Sending, Receiving, queueUp_procTable] at hq hr ⊢
    rcases eq_or_ne q s with rfl | hqs
    · rw [if_pos rfl, if_neg hqr.symm]
      rw [if_neg hqr.symm] at hr
      exact hm r hr
    · rw [if_neg hqs] at hq ⊢
      rcases eq_or_ne r s with rfl | hrs
      · rw [if_pos rfl]
        exact (hm q hq).symm
      · rw [if_neg hrs] at hr ⊢
        exact h.apart q r hqr hq hr
  · have has : s ≠ a := by
      rintro rfl
      simp only [Sending, queueUp_procTable, if_pos] at ha
      exact ha hss
    simp only [Sending, queueUp_procTable, if_neg has.symm] at ha
    simp only [hlog, sent, delivered, if_neg has]
    exact h.done a ha
  · rw [hlog, hmem]
    simp only [SendsTo, queueUp_procTable] at hae ⊢
    rcases eq_or_ne a s with rfl | has
    · simp only [if_pos] at hae
      obtain rfl := proc2pid_inj hae.2
      simp only [sent, delivered, if_pos, h.done a hns]
    · rw [if_neg has, if_neg has] at hae
      simp only [sent, delivered, if_neg has.symm, if_neg has]
      exact h.pending a e hae
  · rw [hlog] at hc
    simp only [sent] at hc
    split_ifs at hc with has
    · subst has
      rcases List.mem_cons.1 hc with rfl | hc
      · exact hsrc
      · exact h.source s c hc
    · exact h.source a c hc
  · rw [hlog]
    simp only [queueUp_procTable] at ht
    exact h.announced t ht
  · rw [hlog]
    exact h.interrupts

theorem takeInterrupt (h : Delivery k) {p : Slot} {m : Addr}
    (hm : ∀ q, Blocked (k.procTable q) → Apart m Message.size (k.procTable q).pMsg Message.size)
    (hint : (k.procTable p).hasIntMsg = true) : Delivery (takeInterrupt k p m) := by
  have hproc (q : Slot) : (MyOS.takeInterrupt k p m).procTable q = { k.procTable q with
      hasIntMsg := if q = p then false else (k.procTable q).hasIntMsg } := by
    rcases eq_or_ne q p with rfl | hqp <;> simp [MyOS.takeInterrupt, *]
  have hlog : (MyOS.takeInterrupt k p m).log = .hardInt p hardIntMsg :: k.log := by
    simp only [MyOS.takeInterrupt, Kernel.set_log, Message.load_store]
  refine ⟨?_, ?_, fun a ha => ?_, fun a e hae => ?_, ?_, fun t ht => ?_, ?_⟩
  · simpa only [hproc] using h.native
  · simpa only [hproc, Blocked, Sending, Receiving] using h.apart
  · rw [hlog]
    exact h.done a (by simpa only [hproc, Sending] using ha)
  · simp only [SendsTo, hproc] at hae ⊢
    rw [hlog]
    have hl : Message.load (MyOS.takeInterrupt k p m).mem (k.procTable a).pMsg =
        Message.load k.mem (k.procTable a).pMsg :=
      Message.load_store_apart (hm a (.inl hae.1)).symm
    rw [hl]
    exact h.pending a e hae
  · rw [hlog]
    exact h.source
  · rw [hproc] at ht
    rw [hlog]
    rcases eq_or_ne t p with rfl | htp
    · simp at ht
    · exact ⟨htp.symm, h.announced t (by simpa only [if_neg htp] using ht)⟩
  · rw [hlog]
    exact ⟨rfl, rfl, h.announced p hint, h.interrupts⟩

/-- A message taken out of the queue: the sender's pending call is answered. -/
theorem takeFrom (h : Delivery k) {p s : Slot} {prev : Option Slot} {m : Addr}
    (hm : ∀ q, Blocked (k.procTable q) → Apart m Message.size (k.procTable q).pMsg Message.size)
    (hf : (k.procTable s).pFlags = sending) (hto : (k.procTable s).pSendto = proc2pid p) :
    Delivery (takeFrom k p s prev m (k.procTable s).pMsg) := by
  have hss : Sending (k.procTable s) := by rw [Sending, hf]; decide
  have hms := hm s (.inl hss)
  have hmem := takeFrom_mem k p s prev m (k.procTable s).pMsg
  have hlog : (MyOS.takeFrom k p s prev m (k.procTable s).pMsg).log =
      .copied s p (Message.load k.mem (k.procTable s).pMsg) :: k.log := by
    cases prev <;> simp only [MyOS.takeFrom, unlinkFrom, copy, Kernel.set_log, Kernel.set_mem,
      Message.load_memcpy hms]
  have hflags (q : Slot)
      (hq : Blocked ((MyOS.takeFrom k p s prev m (k.procTable s).pMsg).procTable q)) : q ≠ s := by
    rintro rfl
    simp only [Blocked, Sending, Receiving, takeFrom_procTable, if_pos, hf] at hq
    exact absurd hq (by decide)
  refine ⟨fun q hq => ?_, fun q r hqr hq hr => ?_, fun a ha => ?_, fun a e hae => ?_, ?_,
    fun t ht => ?_, ?_⟩
  · have hqs : q ≠ s := by
      rintro rfl
      rw [h.native q hq] at hf
      exact absurd hf (by decide)
    simp only [takeFrom_procTable, if_neg hqs]
    exact h.native q hq
  · have hqs := hflags q hq
    have hrs := hflags r hr
    simp only [Blocked, Sending, Receiving, takeFrom_procTable, if_neg hqs, if_neg hrs] at hq hr ⊢
    exact h.apart q r hqr hq hr
  · rw [hlog]
    rcases eq_or_ne a s with rfl | has
    · simp only [sent, delivered, if_pos]
      exact h.pending a p ⟨hss, hto⟩
    · simp only [Sending, takeFrom_procTable, if_neg has] at ha
      simp only [sent, delivered, if_neg has.symm]
      exact h.done a ha
  · have has := hflags a (.inl hae.1)
    simp only [SendsTo, takeFrom_procTable, if_neg has] at hae
    have hl : Message.load (memcpy k.mem m (k.procTable s).pMsg Message.size)
        (k.procTable a).pMsg = Message.load k.mem (k.procTable a).pMsg :=
      Message.load_memcpy_apart hms (hm a (.inl hae.1)).symm
    simp only [hlog, hmem, sent, delivered, takeFrom_procTable, if_neg has, if_neg has.symm, hl]
    exact h.pending a e hae
  · rw [hlog]
    exact h.source
  · rw [hlog]
    simp only [takeFrom_procTable] at ht
    exact h.announced t ht
  · rw [hlog]
    exact h.interrupts

theorem waitFor (h : Delivery k) {p : Slot} {src : Int} {m : Addr}
    (hp : (k.procTable p).pFlags = 0)
    (hm : ∀ q, Blocked (k.procTable q) → Apart m Message.size (k.procTable q).pMsg Message.size) :
    Delivery (waitFor k p src m) := by
  have hother (q : Slot) (hq : q ≠ p) : (MyOS.waitFor k p src m).procTable q = k.procTable q := by
    simp [MyOS.waitFor, hq]
  have hself : ¬ Sending ((MyOS.waitFor k p src m).procTable p) := by
    simp only [Sending, MyOS.waitFor, Kernel.set_procTable, if_pos]
    decide
  have hmsg : ((MyOS.waitFor k p src m).procTable p).pMsg = m := by simp [MyOS.waitFor]
  refine ⟨fun q hq => ?_, fun q r hqr hq hr => ?_, fun a ha => ?_, fun a e hae => ?_, h.source,
    fun t ht => ?_, h.interrupts⟩
  · have hqp : q ≠ p := by
      rintro rfl
      rw [h.native q hq] at hp
      exact absurd hp (by decide)
    rw [hother q hqp]
    exact h.native q hq
  · rcases eq_or_ne q p with rfl | hqp
    · rw [hother r hqr.symm] at hr ⊢
      rw [hmsg]
      exact hm r hr
    · rw [hother q hqp] at hq ⊢
      rcases eq_or_ne r p with rfl | hrp
      · rw [hmsg]
        exact (hm q hq).symm
      · rw [hother r hrp] at hr ⊢
        exact h.apart q r hqr hq hr
  · rcases eq_or_ne a p with rfl | hap
    · exact h.done a (not_sending_of_runs hp)
    · exact h.done a (by rwa [hother a hap] at ha)
  · have hap : a ≠ p := by
      rintro rfl
      exact hself hae.1
    rw [SendsTo, hother a hap] at hae
    rw [hother a hap]
    exact h.pending a e hae
  · refine h.announced t ?_
    rcases eq_or_ne t p with rfl | htp
    · simpa [MyOS.waitFor] using ht
    · rwa [hother t htp] at ht

theorem wake (h : Delivery k) {t : Slot} (hr : (k.procTable t).pFlags = receiving) :
    Delivery (wake (k.note (.informed t)) t (k.procTable t).pMsg) := by
  have hrt : Receiving (k.procTable t) := by rw [Receiving, hr]; decide
  have hnt : ¬ Sending (k.procTable t) := by rw [Sending, hr]; decide
  have hother (q : Slot) (hq : q ≠ t) :
      (MyOS.wake (k.note (.informed t)) t (k.procTable t).pMsg).procTable q = k.procTable q := by
    simp [MyOS.wake, hq]
  have hself :
      ((MyOS.wake (k.note (.informed t)) t (k.procTable t).pMsg).procTable t).pFlags = 0 := by
    simp only [MyOS.wake, Kernel.set_procTable, if_pos, Kernel.note_procTable, hr]
    decide
  have hflags (q : Slot) (hq : Blocked ((MyOS.wake (k.note (.informed t)) t
      (k.procTable t).pMsg).procTable q)) : q ≠ t := by
    rintro rfl
    exact hq.elim (not_sending_of_runs hself) (not_receiving_of_runs hself)
  refine ⟨fun q hq => ?_, fun q r hqr hq hr => ?_, fun a ha => ?_, fun a e hae => ?_, h.source,
    fun u hu => ?_, ?_⟩
  · have hqt : q ≠ t := by
      rintro rfl
      rw [h.native q hq] at hr
      exact absurd hr (by decide)
    rw [hother q hqt]
    exact h.native q hq
  · have hqt := hflags q hq
    have hrt := hflags r hr
    rw [hother q hqt] at hq ⊢
    rw [hother r hrt] at hr ⊢
    exact h.apart q r hqr hq hr
  · rcases eq_or_ne a t with rfl | hat
    · exact h.done a hnt
    · exact h.done a (by rwa [hother a hat] at ha)
  · have hat := hflags a (.inl hae.1)
    rw [SendsTo, hother a hat] at hae
    have hap := h.apart a t hat (.inl hae.1) (.inr hrt)
    have hl : Message.load (hardIntMem (k.note (.informed t)) (k.procTable t).pMsg)
        (k.procTable a).pMsg = Message.load k.mem (k.procTable a).pMsg :=
      (Message.load_setType_apart hap).trans (Message.load_setSource_apart hap)
    rw [hother a hat]
    refine (h.pending a e hae).trans ?_
    rw [← hl]
    rfl
  · have hut : u ≠ t := by
      rintro rfl
      simp [MyOS.wake] at hu
    rw [hother u hut] at hu
    exact ⟨hut.symm, .inr (h.announced u hu)⟩
  · refine ⟨?_, ?_, .inl rfl, h.interrupts⟩ <;>
      simp only [hardIntMem, Message.load_setType, Message.load_setSource]

theorem pend (h : Delivery k) (t : Slot) : Delivery (pend (k.note (.informed t)) t) := by
  have hproc (q : Slot) : (MyOS.pend (k.note (.informed t)) t).procTable q = { k.procTable q with
      hasIntMsg := if q = t then true else (k.procTable q).hasIntMsg } := by
    rcases eq_or_ne q t with rfl | hqt <;> simp [MyOS.pend, *]
  have hlog : (MyOS.pend (k.note (.informed t)) t).log = .informed t :: k.log := rfl
  have hmem : (MyOS.pend (k.note (.informed t)) t).mem = k.mem := rfl
  refine ⟨?_, ?_, ?_, ?_, h.source, fun u hu => ?_, h.interrupts⟩
  · simpa only [hproc] using h.native
  · simpa only [hproc, Blocked, Sending, Receiving] using h.apart
  · simpa only [hproc, hlog, Sending, sent, delivered] using h.done
  · simpa only [hproc, hlog, hmem, SendsTo, sent, delivered] using h.pending
  · rw [hproc] at hu
    rcases eq_or_ne u t with rfl | hut
    · exact .inl rfl
    · exact .inr (h.announced u (by simpa only [if_neg hut] using hu))

theorem congr (h : Delivery k) (ht : k'.procTable = k.procTable) (hm : k'.mem = k.mem)
    (hl : k'.log = k.log) : Delivery k' := by
  obtain ⟨h1, h2, h3, h4, h5, h6, h7⟩ := h
  refine ⟨?_, ?_, ?_, ?_, ?_, ?_, ?_⟩ <;> simpa only [SendsTo, ht, hm, hl]

theorem step (h : Delivery k) (hf : ∀ q, Plain (k.procTable q)) {a : Act}
    (hs : PrivateStep k a k') : Delivery k' := by
  obtain ⟨hs, hp⟩ := hs
  rcases step_cases hs with
    ⟨p, function, srcDest, m, rfl, hrun, hs⟩ | ⟨t, rfl, hi⟩ | ⟨mem, rfl, rfl⟩
  · obtain ⟨src, k₁, hsrc, ho, rfl⟩ := sendrec_ok hs
    obtain rfl := h.va2la (by rw [hrun]; decide) hsrc
    have hsave : Delivery (save k) := h.congr rfl rfl rfl
    have hk : Delivery (MyOS.stamp (save k) p src) := hsave.stamp hp
    have hmsg : (Message.load (MyOS.stamp (save k) p src).mem src).source =
        BitVec.ofInt 32 (proc2pid p) := by
      simp only [MyOS.stamp, Message.load_setSource]
    refine Delivery.congr (k := k₁) ?_ rfl rfl rfl
    cases ho with
    | send d k' hdp _ ho =>
      cases ho with
      | handOff dst ha hdst _ hfd _ =>
        have hd : (k.procTable d).pFlags = receiving := (hf d).receiving_iff.1 ha.1
        have hdst' : MyOS.va2la k d (k.procTable d).pMsg = .ok dst := hdst
        obtain rfl := h.va2la (by rw [hd]; decide) hdst'
        exact hk.handOff (not_sending_of_runs hrun) hp hmsg hd
      | queueUp last _ _ _ _ => exact hk.queueUp hrun hp hmsg
    | receive srcDest k' ho =>
      cases ho with
      | takeInterrupt hint _ => exact hk.takeInterrupt hp hint
      | takeFrom s prev a _ _ _ hfs hto _ ha =>
        have ha' : MyOS.va2la k s (k.procTable s).pMsg = .ok a := ha
        have hfs' : (k.procTable s).pFlags = sending := hfs
        obtain rfl := h.va2la (by rw [hfs']; decide) ha'
        exact hk.takeFrom hp hfs' hto
      | waitFor _ _ _ _ _ _ => exact hk.waitFor hrun hp
  · cases informInt_ok hi with
    | wake ha hft _ => exact h.wake ((hf t).receiving_iff.1 ha.1)
    | pend _ => exact h.pend t
  · refine ⟨h.native, h.apart, h.done, fun s d hsd => ?_, h.source, h.announced, h.interrupts⟩
    rw [h.pending s d hsd, hp s hsd.1]

end Delivery

theorem Delivery.of_run {t : List Act} {k : Kernel} (h : Run Start PrivateStep t k) :
    Delivery k ∧ IpcInv k := by
  refine h.invariant (P := fun _ k => Delivery k ∧ IpcInv k) (fun k hk => ⟨?_, .start hk⟩)
    fun t k a k' ⟨hd, hi⟩ hs => ⟨hd.step hi.plain hs, hi.step hs.1⟩
  obtain ⟨mem, limit, rfl⟩ := hk
  have hns (s : Slot) : ¬ Blocked ((kernelMain mem limit).procTable s) := by
    obtain ⟨-, -, -, hf | ⟨hf, -⟩⟩ := kernelMain_proc mem limit s <;>
      rw [Blocked, Sending, Receiving, hf] <;> decide
  refine ⟨fun q hq => ?_, fun q r _ hq => absurd hq (hns q), fun _ _ => rfl,
    fun s d hs => absurd (.inl hs.1) (hns s), fun s c hc => ?_, fun t ht => ?_, trivial⟩
  · simp only [kernelMain, restart_procTable, kernelMainProc, if_pos hq]
  · simp [kernelMain, restart, sent] at hc
  · rw [(kernelMain_proc mem limit t).2.2.1] at ht
    exact Bool.noConfusion ht

/-! ## What a receiver gets -/

/-- A `RECEIVE` from one process that is over after a step, in the step of the call or in one that
wakes the receiver up, has a message of that process. -/
def FromSelected (k : Kernel) (a : Act) (k' : Kernel) : Prop :=
  ∀ p s m, (a = .sendrec p .receive (proc2pid s) m ∧ (k'.procTable p).pFlags = 0 ∨
      Receiving (k.procTable p) ∧ (k.procTable p).pRecvfrom = proc2pid s ∧
        (k.procTable p).pMsg = m ∧ ¬ Receiving (k'.procTable p)) →
    (Message.load k'.mem m).source = BitVec.ofInt 32 (proc2pid s)

/-- A `RECEIVE` from any process, with no interrupt pending and some process blocked sending to
the receiver, takes the message of the one that has been blocked longest, which runs again. -/
def TakesLongest (k : Kernel) (a : Act) (k' : Kernel) : Prop :=
  ∀ p m, a = .sendrec p .receive any m → (k.procTable p).hasIntMsg = false →
    (∃ s, SendsTo k s p) → ∃ s msg, SendsTo k s p ∧
      (∀ s', SendsTo k s' p → s' ≠ s → sinceCall k.log s' < sinceCall k.log s) ∧
      k'.log = .copied s p msg :: k.log ∧ Message.load k'.mem m = msg ∧ (k'.procTable s).pFlags = 0

variable {k k' : Kernel} {a : Act}

/-- The message of a blocked sender carries its number. -/
theorem Delivery.pending_source (h : Delivery k) {s d : Slot} (hs : SendsTo k s d) :
    (Message.load k.mem (k.procTable s).pMsg).source = BitVec.ofInt 32 (proc2pid s) := by
  refine h.source s (d, Message.load k.mem (k.procTable s).pMsg) ?_
  rw [h.pending s d hs]
  exact List.mem_cons_self

/-- The messages at the end of a `RECEIVE` that its own step completes. -/
theorem receive_source (hd : Delivery k) {p s : Slot} {m : Addr}
    (hm : ∀ q, Blocked (k.procTable q) → Apart m Message.size (k.procTable q).pMsg Message.size)
    (ho : ReceiveOutcome k p (proc2pid s) m m k') (hp : (k'.procTable p).pFlags = 0) :
    (Message.load k'.mem m).source = BitVec.ofInt 32 (proc2pid s) := by
  cases ho with
  | takeInterrupt _ hsrc =>
    exact absurd hsrc (not_or.2 ⟨proc2pid_ne_any s, proc2pid_ne_interrupt s⟩)
  | takeFrom s' prev a _ hsel _ hf hto _ ha =>
    obtain rfl := proc2pid_inj (hsel.resolve_left (proc2pid_ne_any s))
    have hst : SendsTo k s p := ⟨by rw [hf]; decide, hto⟩
    obtain rfl := hd.va2la (by rw [hf]; decide) ha
    rw [takeFrom_mem, Message.load_memcpy (hm s (.inl hst.1))]
    exact hd.pending_source hst
  | waitFor =>
    simp only [waitFor, Kernel.set_procTable, if_pos] at hp
    exact absurd hp (by decide)

/-- Only the process asked for, or an interrupt, ends the wait of a receiver. -/
theorem fromSelected (hd : Delivery k) (hi : IpcInv k) (hs : PrivateStep k a k') :
    FromSelected k a k' := by
  intro p s m hc
  obtain ⟨hs, hpriv⟩ := hs
  rcases step_cases hs with ⟨p', function, srcDest, m', rfl, hrun, hs⟩ | ⟨t, rfl, hinf⟩ |
    ⟨mem, rfl, rfl⟩
  · obtain ⟨src, k₁, hsrc, ho, rfl⟩ := sendrec_ok hs
    obtain rfl := hd.va2la (by rw [hrun]; decide) hsrc
    have hsave : Delivery (save k) := hd.congr rfl rfl rfl
    have hk : Delivery (stamp (save k) p' src) := hsave.stamp hpriv
    rw [restart_mem]
    rw [restart_procTable] at hc
    rcases hc with ⟨he, hp⟩ | ⟨hrec, hfrom, rfl, hnr⟩
    · simp only [Act.sendrec.injEq] at he
      obtain ⟨rfl, rfl, rfl, rfl⟩ := he
      cases ho with
      | receive _ _ ho => exact receive_source hk hpriv ho hp
    · have hpp : p ≠ p' := by
        rintro rfl
        exact not_receiving_of_runs hrun hrec
      cases ho with
      | send d k' _ _ ho =>
        cases ho with
        | handOff dst ha hdst _ _ _ =>
          rcases eq_or_ne p d with rfl | hpd
          · have hdst' : MyOS.va2la k p (k.procTable p).pMsg = .ok dst := hdst
            have hpf := (hi.plain p).receiving_iff.1 hrec
            obtain rfl := hd.va2la (by rw [hpf]; decide) hdst'
            have hps : p' = s := by
              rcases ha.2 with hr | hr
              · exact proc2pid_inj (hr.symm.trans hfrom)
              · exact absurd (hfrom.symm.trans hr) (proc2pid_ne_any s)
            have hmem : (handOff ((stamp (save k) p' src).note (.call p' p
                (Message.load (stamp (save k) p' src).mem src))) p' p
                (k.procTable p).pMsg src).mem =
                memcpy (stamp (save k) p' src).mem (k.procTable p).pMsg src Message.size := by
              simp only [handOff, copy, Kernel.set_mem, Kernel.note_mem]
            rw [hmem, Message.load_memcpy (hpriv p (.inr hrec)).symm, ← hps]
            simp only [stamp, Message.load_setSource]
          · simp only [Receiving, handOff_procTable, if_neg hpd] at hnr
            exact absurd hrec hnr
        | queueUp last _ _ _ _ =>
          simp only [Receiving, queueUp_procTable, if_neg hpp] at hnr
          exact absurd hrec hnr
      | receive srcDest k' ho =>
        refine absurd hrec fun hrec => hnr ?_
        cases ho with
        | takeInterrupt => simpa [Receiving, takeInterrupt, hpp] using hrec
        | takeFrom s' _ _ _ _ _ hf =>
          have hps : p ≠ s' := by
            rintro rfl
            exact absurd hrec (by rw [Receiving, show (k.procTable p).pFlags = _ from hf]; decide)
          simp only [Receiving, takeFrom_procTable, if_neg hps]
          exact hrec
        | waitFor => simpa [Receiving, waitFor, hpp] using hrec
  · rcases hc with ⟨he, -⟩ | ⟨hrec, hfrom, -, hnr⟩
    · cases he
    · refine absurd hrec fun hrec => hnr ?_
      cases informInt_ok hinf with
      | wake ha =>
        have hpt : p ≠ t := by
          rintro rfl
          rcases ha.2 with hr | hr
          · exact proc2pid_ne_interrupt s (hfrom.symm.trans hr)
          · exact proc2pid_ne_any s (hfrom.symm.trans hr)
        simpa [Receiving, wake, hpt] using hrec
      | pend =>
        rcases eq_or_ne p t with rfl | hpt <;> simpa [Receiving, pend, *] using hrec
  · rcases hc with ⟨he, -⟩ | ⟨hrec, -, -, hnr⟩
    · cases he
    · exact absurd hrec hnr

theorem takesLongest (hd : Delivery k) (hi : IpcInv k) (hs : PrivateStep k a k') :
    TakesLongest k a k' := by
  rintro p m rfl hint ⟨s₀, hs₀⟩
  obtain ⟨hs, hpriv⟩ := hs
  obtain ⟨queue, hq⟩ := hi.queues
  rcases step_cases hs with ⟨p', function, srcDest, m', he, hrun, hs⟩ | ⟨t, he, -⟩ | ⟨mem, he, -⟩
  · simp only [Act.sendrec.injEq] at he
    obtain ⟨rfl, rfl, rfl, rfl⟩ := he
    obtain ⟨src, k₁, hsrc, ho, rfl⟩ := sendrec_ok hs
    obtain rfl := hd.va2la (by rw [hrun]; decide) hsrc
    have hsave : Delivery (save k) := hd.congr rfl rfl rfl
    have hk : Delivery (stamp (save k) p src) := hsave.stamp hpriv
    cases ho with
    | receive _ _ ho =>
      cases ho with
      | takeInterrupt hint' _ =>
        rw [stamp_procTable, save_procTable, hint] at hint'
        exact Bool.noConfusion hint'
      | takeFrom s prev a _ _ hany hf hto _ ha =>
        have hst : SendsTo k s p := ⟨by rw [show (k.procTable s).pFlags = _ from hf]; decide, hto⟩
        have hc := hq.chain p
        rw [show (k.procTable p).qSending = _ from hany rfl] at hc
        rcases hqp : queue p with _ | ⟨b, l⟩
        · rw [hqp] at hc
          exact absurd hc (by simp)
        · rw [hqp] at hc
          obtain rfl : s = b := by simpa using (chain_cons.1 hc).1
          have hord := hq.inOrder p
          rw [hqp] at hord
          refine ⟨s, _, hst, fun s' hs' hne => ?_, ?_, rfl, ?_⟩
          · have hmem := (hq.mem p s').2 hs'
            rw [hqp] at hmem
            exact List.rel_of_pairwise_cons hord ((List.mem_cons.1 hmem).resolve_left hne)
          · rw [restart_log, restart_mem, takeFrom_mem]
            cases prev <;> rfl
          · simp only [restart_procTable, takeFrom_procTable, if_pos, hf]
            decide
      | waitFor _ hany _ _ _ _ =>
        have hc := hq.chain p
        rw [show (k.procTable p).qSending = _ from hany rfl, chain_none] at hc
        exact absurd ((hq.mem p s₀).2 hs₀) (by simp [hc])
  · cases he
  · cases he

/-- Messages arrive once, in order and unforged. -/
theorem messages_once {t : List Act} (h : Run Start PrivateStep t k) :
    (∀ s, ¬ Sending (k.procTable s) → sent s k.log = delivered s k.log) ∧
    (∀ s d, SendsTo k s d → ∃ m, sent s k.log = (d, m) :: delivered s k.log) ∧
    (∀ s, ∀ c ∈ sent s k.log, c.2.source = BitVec.ofInt 32 (proc2pid s)) ∧
    AllAnnounced k.log ∧
    ∀ a k', PrivateStep k a k' → FromSelected k a k' ∧ TakesLongest k a k' := by
  obtain ⟨hd, hi⟩ := Delivery.of_run h
  exact ⟨hd.done, fun s d hs => ⟨_, hd.pending s d hs⟩, hd.source, hd.interrupts,
    fun a k' hs => ⟨fromSelected hd hi hs, takesLongest hd hi hs⟩⟩

/-- `TestA` sends to `INIT`, which receives from anybody. -/
theorem messages_once_two : ∃ k, Run Start PrivateStep
      [.sendrec 5 .receive any 0x2000, .sendrec 6 .send 5 0x1000] k ∧
    (∀ s, ¬ Sending (k.procTable s) → sent s k.log = delivered s k.log) ∧
    (∀ s d, SendsTo k s d → ∃ m, sent s k.log = (d, m) :: delivered s k.log) ∧
    (∀ s, ∀ c ∈ sent s k.log, c.2.source = BitVec.ofInt 32 (proc2pid s)) ∧
    AllAnnounced k.log ∧
    ∀ a k', PrivateStep k a k' → FromSelected k a k' ∧ TakesLongest k a k' := by
  have hfree : ∀ q, ¬ Blocked ((kernelMain (fun _ => 0) 0).procTable q) := by decide
  have hany : (step (kernelMain (fun _ => 0) 0) (.sendrec 6 .send 5 0x1000)).any (fun k =>
      (∀ q, Blocked (k.procTable q) → (k.procTable q).pMsg = 0x1000) ∧
        (step k (.sendrec 5 .receive any 0x2000)).isSome = true) = true := by decide
  obtain ⟨k₁, h₁, hp⟩ := (Option.any_eq_true _ _).1 hany
  obtain ⟨hmsg, hsome⟩ := of_decide_eq_true hp
  obtain ⟨k₂, h₂⟩ := Option.isSome_iff_exists.1 hsome
  have hpriv : Private k₁ (.sendrec 5 .receive any 0x2000) := by
    intro q hq
    rw [hmsg q hq]
    unfold Apart Within Message.size
    bv_omega
  have hrun : Run Start PrivateStep
      [.sendrec 5 .receive any 0x2000, .sendrec 6 .send 5 0x1000] k₂ :=
    .snoc (.snoc (.start ⟨_, _, rfl⟩) ⟨h₁, fun q hq => absurd hq (hfree q)⟩) ⟨h₂, hpriv⟩
  exact ⟨k₂, hrun, messages_once hrun⟩

/-- `TestA` sends to `INIT` and `TestB` to `TestC` from one address. What `INIT` then gets from
`TestA` says that `TestB` has sent it. -/
theorem messages_forged : ∃ k m, Run Start Step
      [.sendrec 5 .receive any 0x2000, .sendrec 7 .send 8 0x1000, .sendrec 6 .send 5 0x1000] k ∧
    ¬ Sending (k.procTable 6) ∧ delivered 6 k.log = [(5, m)] ∧
      m.source = BitVec.ofInt 32 (proc2pid 7) ∧ sent 6 k.log ≠ delivered 6 k.log := by
  have hany : (Run.exec step (kernelMain (fun _ => 0) 0)
      [.sendrec 6 .send 5 0x1000, .sendrec 7 .send 8 0x1000, .sendrec 5 .receive any 0x2000]).any
      (fun k => (k.procTable 6).pFlags = 0 ∧
        (delivered 6 k.log).map (fun c => (c.1, c.2.source)) = [(5, 7)] ∧
        (sent 6 k.log).map (fun c => (c.1, c.2.source)) = [(5, 6)]) = true := by decide +kernel
  obtain ⟨k, hk, hp⟩ := (Option.any_eq_true _ _).1 hany
  obtain ⟨hflags, hgot, hsent⟩ := of_decide_eq_true hp
  have hne : sent 6 k.log ≠ delivered 6 k.log := fun he => by
    rw [he, hgot] at hsent
    exact absurd hsent (by decide)
  obtain ⟨c, hc, heq⟩ := List.map_eq_singleton_iff.1 hgot
  obtain ⟨hdest, hsource⟩ := Prod.mk.inj heq
  obtain ⟨d, m⟩ := c
  subst hdest
  refine ⟨k, m, Run.of_exec (.start ⟨_, _, rfl⟩) hk, ?_, hc, hsource, hne⟩
  rw [Sending, hflags]
  decide
end MyOS
