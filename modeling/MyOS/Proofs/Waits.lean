import MyOS.Servers
import MyOS.Proofs.Delivery
import MyOS.Proofs.Progress

/-!
# What a trap shows

What each process waits for, without the queues, and the messages where their processes have them.
As long as each process keeps its messages in memory of its own, a message that is handed over or
taken is the one that was sent, and nobody else's changes.
-/

namespace MyOS

open Memory

/-- What a process waits for: a process that takes its message, or a message. -/
inductive Waits
  | nothing
  | toSend (dest : Int) (m : Addr)
  | toReceive (src : Int) (m : Addr)
  | other
  deriving DecidableEq

def Proc.waits (x : Proc) : Waits :=
  if x.pFlags = 0 then .nothing
  else if Sending x then .toSend x.pSendto x.pMsg
  else if Receiving x then .toReceive x.pRecvfrom x.pMsg
  else .other

def Kernel.waits (k : Kernel) (p : Slot) : Waits := (k.procTable p).waits

/-- Of the memory of other processes than those of `S` nothing changes. -/
def MemOf (owner : Addr → Slot) (S : Slot → Prop) (mem mem' : Mem) : Prop :=
  ∀ x, ¬ S (owner x) → mem' x = mem x

variable {owner : Addr → Slot} {S T : Slot → Prop} {mem mem' : Mem} {k k' : Kernel} {p q t : Slot}
  {a b : Addr}

theorem OwnsMsg.within (h : OwnsMsg owner p a) {x : Addr} (hx : Within x a Message.size) :
    owner x = p := by
  have := h _ hx
  rwa [BitVec.ofNat_toNat, BitVec.setWidth_eq, BitVec.add_comm, BitVec.sub_add_cancel] at this

theorem OwnsMsg.apart (ha : OwnsMsg owner p a) (hb : OwnsMsg owner q b) (hpq : p ≠ q) :
    Apart a Message.size b Message.size :=
  fun _ hx hx' => hpq ((ha.within hx).symm.trans (hb.within hx'))

namespace MemOf

theorem refl (mem : Mem) : MemOf owner S mem mem := fun _ _ => rfl

theorem trans {mem'' : Mem} (h : MemOf owner S mem mem') (h' : MemOf owner S mem' mem'') :
    MemOf owner S mem mem'' :=
  fun x hx => (h' x hx).trans (h x hx)

theorem mono (h : MemOf owner S mem mem') (hS : ∀ p, S p → T p) : MemOf owner T mem mem' :=
  fun x hx => h x fun hs => hx (hS _ hs)

/-- The messages of the others stay. -/
theorem load (h : MemOf owner S mem mem') (ha : OwnsMsg owner p a) (hp : ¬ S p) :
    Message.load mem' a = Message.load mem a :=
  Message.load_congr fun i hi => h _ (by
    rw [ha i hi]
    exact hp)

theorem poke {n : ℕ} {f : ℕ → Byte} (ha : ∀ x, Within x a n → S (owner x)) :
    MemOf owner S mem (poke mem a n f) :=
  fun _ hx => poke_of_not_within fun hw => hx (ha _ hw)

theorem store (ha : OwnsMsg owner p a) (hp : S p) (msg : Message) :
    MemOf owner S mem (Message.store mem a msg) :=
  poke fun _ hx => (ha.within hx).symm ▸ hp

theorem memcpy (ha : OwnsMsg owner p a) (hb : OwnsMsg owner q b) (hpq : p ≠ q) (hp : S p) :
    MemOf owner S mem (memcpy mem a b Message.size) := by
  rw [memcpy_eq_poke _ _ _ _ (by decide) (ha.apart hb hpq)]
  exact poke fun _ hx => (ha.within hx).symm ▸ hp

theorem setSource (ha : OwnsMsg owner p a) (hp : S p) (v : BitVec 32) :
    MemOf owner S mem (Message.setSource mem a v) :=
  poke fun x hx => (ha.within (x := x) (by unfold Within Message.size at *; omega)).symm ▸ hp

theorem setType (ha : OwnsMsg owner p a) (hp : S p) (v : BitVec 32) :
    MemOf owner S mem (Message.setType mem a v) :=
  poke fun x hx => (ha.within (x := x) (by unfold Within Message.size at *; bv_omega)).symm ▸ hp

end MemOf

/-! ## Who waits for what -/

theorem waits_eq_nothing : k.waits p = .nothing ↔ (k.procTable p).pFlags = 0 := by
  unfold Kernel.waits Proc.waits
  split_ifs with h
  · exact iff_of_true rfl h
  all_goals exact iff_of_false nofun h

theorem waits_eq_toSend {d : Int} {m : Addr} : k.waits p = .toSend d m ↔
    Sending (k.procTable p) ∧ (k.procTable p).pSendto = d ∧ (k.procTable p).pMsg = m := by
  unfold Kernel.waits Proc.waits
  split_ifs with h0 hs hr
  · exact iff_of_false nofun fun h => not_sending_of_runs h0 h.1
  · simp [hs]
  · exact iff_of_false nofun fun h => hs h.1
  · exact iff_of_false nofun fun h => hs h.1

theorem sendsTo_iff {d : Slot} : SendsTo k p d ↔ ∃ m, k.waits p = .toSend (proc2pid d) m := by
  simp [waits_eq_toSend, SendsTo, Sending]

theorem receiving_of_waits {src : Int} {m : Addr} (h : k.waits p = .toReceive src m) :
    Receiving (k.procTable p) ∧ (k.procTable p).pRecvfrom = src ∧ (k.procTable p).pMsg = m := by
  unfold Kernel.waits Proc.waits at h
  split_ifs at h with h0 hs hr
  simp only [Waits.toReceive.injEq] at h
  exact ⟨hr, h⟩

theorem waits_of_receiving {x : Proc} (hr : Receiving x) (hf : x.pFlags &&& ~~~receiving = 0) :
    x.waits = .toReceive x.pRecvfrom x.pMsg := by
  have hs : ¬ Sending x := fun hs => hs (and_eq_zero hf (by decide))
  unfold Proc.waits
  rw [if_neg fun h0 => not_receiving_of_runs h0 hr, if_neg hs, if_pos hr]

/-- The fields that show what a process waits for. -/
theorem Proc.waits_congr {x y : Proc} (h : x.pFlags = y.pFlags ∧ x.pMsg = y.pMsg ∧
    x.pSendto = y.pSendto ∧ x.pRecvfrom = y.pRecvfrom) : x.waits = y.waits := by
  obtain ⟨hf, hm, ht, hr⟩ := h
  cases x
  cases y
  subst hf hm ht hr
  rfl

/-! ## One lemma for each thing a trap does -/

section Changes

variable {s d : Slot} {m : Addr} (k)

theorem handOff_waits (hf : (k.procTable d).pFlags &&& ~~~receiving = 0) (dst src : Addr)
    (q : Slot) :
    (handOff k s d dst src).waits q = if q = d then .nothing else k.waits q := by
  by_cases hq : q = d
  · rw [if_pos hq, waits_eq_nothing, handOff_procTable]
    simpa [hq] using hf
  · rw [if_neg hq]
    exact Proc.waits_congr (by simp [handOff_procTable, hq])

theorem queueUp_waits (hs : (k.procTable s).pFlags = 0) (last : Option Slot) (q : Slot) :
    (queueUp k s d m last).waits q = if q = s then .toSend (proc2pid d) m else k.waits q := by
  by_cases hq : q = s
  · rw [if_pos hq, waits_eq_toSend, queueUp_procTable, hq]
    simp only [if_pos, hs, Sending, and_self, and_true]
    decide
  · rw [if_neg hq]
    exact Proc.waits_congr (by simp [queueUp_procTable, hq])

theorem takeFrom_waits (hf : (k.procTable s).pFlags = sending) (prev : Option Slot)
    (dst src : Addr) (q : Slot) :
    (takeFrom k p s prev dst src).waits q = if q = s then .nothing else k.waits q := by
  by_cases hq : q = s
  · rw [if_pos hq, waits_eq_nothing, takeFrom_procTable, hq]
    simp only [if_pos, hf]
    decide
  · rw [if_neg hq]
    exact Proc.waits_congr (by simp [takeFrom_procTable, hq])

theorem waitFor_waits (src : Int) (q : Slot) :
    (waitFor k p src m).waits q = if q = p then .toReceive src m else k.waits q := by
  by_cases hq : q = p
  · have hr : Receiving ((waitFor k p src m).procTable p) := by
      simp only [waitFor, Kernel.set_procTable, if_pos, Receiving]
      decide
    rw [if_pos hq, hq, Kernel.waits, waits_of_receiving hr]
    all_goals simp [waitFor]
  · simp [Kernel.waits, waitFor, hq]

theorem takeInterrupt_waits (dst : Addr) : (takeInterrupt k p dst).waits = k.waits := by
  funext q
  exact Proc.waits_congr (by by_cases hq : q = p <;> simp [takeInterrupt, hq])

theorem wake_waits (hf : (k.procTable s).pFlags &&& ~~~receiving = 0) (q : Slot) :
    (wake k s a).waits q = if q = s then .nothing else k.waits q := by
  by_cases hq : q = s
  · rw [if_pos hq, waits_eq_nothing, hq]
    simpa [wake] using hf
  · simp [Kernel.waits, wake, hq]

theorem pend_waits : (pend k s).waits = k.waits := by
  funext q
  exact Proc.waits_congr (by by_cases hq : q = s <;> simp [pend, hq])

end Changes

/-! ## The traps -/

/-- What a `SEND` by `p` to `d` shows: the message has been handed over, or `p` waits. -/
inductive SendSeen (owner : Addr → Slot) (k : Kernel) (p d : Slot) (m : Addr) (k' : Kernel) : Prop
  | handed (src : Int) (a : Addr) : k.waits d = .toReceive src a → src = proc2pid p ∨ src = any →
    (∀ q, k'.waits q = if q = d then .nothing else k.waits q) →
    k'.msgAt d a = { k.msgAt p m with source := BitVec.ofInt 32 (proc2pid p) } →
    MemOf owner (fun q => q = p ∨ q = d) k.mem k'.mem → SendSeen owner k p d m k'
  | queued : (∀ src a, k.waits d = .toReceive src a → src ≠ proc2pid p ∧ src ≠ any) →
    (∀ q, k'.waits q = if q = p then .toSend (proc2pid d) m else k.waits q) →
    k'.msgAt p m = { k.msgAt p m with source := BitVec.ofInt 32 (proc2pid p) } →
    MemOf owner (· = p) k.mem k'.mem → SendSeen owner k p d m k'

/-- What a `RECEIVE` by `p` from `src` shows. -/
inductive ReceiveSeen (k : Kernel) (p : Slot) (src : Int) (m : Addr)
    (k' : Kernel) : Prop
  | interrupt : (k.procTable p).hasIntMsg = true → k'.waits = k.waits →
    k'.msgAt p m = hardIntMsg → ReceiveSeen k p src m k'
  | took (s : Slot) (a : Addr) : k.waits s = .toSend (proc2pid p) a →
    src = any ∨ src = proc2pid s → s ≠ p →
    (∀ q, k'.waits q = if q = s then .nothing else k.waits q) →
    k'.msgAt p m = k.msgAt s a → ReceiveSeen k p src m k'
  | waits : (∀ s a, src = proc2pid s → k.waits s ≠ .toSend (proc2pid p) a) →
    (∀ q, k'.waits q = if q = p then .toReceive src m else k.waits q) →
    ReceiveSeen k p src m k'

/-- What an interrupt for `t` shows. -/
inductive InformSeen (owner : Addr → Slot) (k : Kernel) (t : Slot) (k' : Kernel) : Prop
  | woken (src : Int) (a : Addr) : k.waits t = .toReceive src a →
    (∀ q, k'.waits q = if q = t then .nothing else k.waits q) →
    (Message.load k'.mem a).type = MsgType.hardInt.code →
    MemOf owner (· = t) k.mem k'.mem → InformSeen owner k t k'
  | pending : k'.waits = k.waits → k'.mem = k.mem → InformSeen owner k t k'

/-- What stays as it is: the segments, and that no interrupt is pending but for `t`. -/
structure SameRest (t : Slot) (k k' : Kernel) : Prop where
  ldts : ∀ q, (k'.procTable q).ldts = (k.procTable q).ldts
  hasIntMsg : ∀ q, q ≠ t → (k.procTable q).hasIntMsg = false →
    (k'.procTable q).hasIntMsg = false

theorem SameRest.la (h : SameRest t k k') (q : Slot) (a : Addr) : k'.la q a = k.la q a := by
  unfold Kernel.la
  rw [h.ldts]

theorem SameRest.of_table {k₀ : Kernel} (h : SameRest t k₀ k') (ht : k₀.procTable = k.procTable) :
    SameRest t k k' :=
  ⟨fun q => ht ▸ h.ldts q, fun q hq => ht ▸ h.hasIntMsg q hq⟩

theorem SameRest.restart (h : SameRest t k k') : SameRest t k (restart k') := ⟨h.ldts, h.hasIntMsg⟩

theorem waits_of_table (h : k'.procTable = k.procTable) : k'.waits = k.waits := by
  unfold Kernel.waits
  rw [h]

theorem handOff_rest (k : Kernel) (s d : Slot) (dst src : Addr) :
    SameRest t k (handOff k s d dst src) :=
  ⟨fun q => by rw [handOff_procTable], fun q _ h => by rw [handOff_procTable, h]⟩

theorem handOff_mem (k : Kernel) (s d : Slot) (dst src : Addr) :
    (handOff k s d dst src).mem = memcpy k.mem dst src Message.size := by
  simp only [handOff, copy, Kernel.set_mem]

theorem queueUp_rest (k : Kernel) (s d : Slot) (m : Addr) (last : Option Slot) :
    SameRest t k (queueUp k s d m last) :=
  ⟨fun q => by rw [queueUp_procTable], fun q _ h => by rw [queueUp_procTable, h]⟩

theorem queueUp_mem (k : Kernel) (s d : Slot) (m : Addr) (last : Option Slot) :
    (queueUp k s d m last).mem = k.mem := by
  cases last <;> rfl

theorem send_seen {d : Slot} {m : Addr} (hp : (k.procTable p).pFlags = 0)
    (hm : OwnsMsg owner p (k.la p m))
    (hd : ∀ src a, k.waits d = .toReceive src a → OwnsMsg owner d (k.la d a))
    (h : sendrec k p .send (proc2pid d) m = .ok k') :
    SendSeen owner k p d m k' ∧ SameRest t k k' := by
  obtain ⟨la, k₁, hla, ho, rfl⟩ := sendrec_ok h
  obtain rfl : la = k.la p m := va2la_eq hla
  have hload : Message.load (stamp (save k) p (k.la p m)).mem (k.la p m) =
      { k.msgAt p m with source := BitVec.ofInt 32 (proc2pid p) } := by
    exact Message.load_setSource k.mem (k.la p m) _
  have hstamp (S : Slot → Prop) (hS : S p) :
      MemOf owner S k.mem (stamp (save k) p (k.la p m)).mem := .setSource hm hS _
  generalize hdest : proc2pid d = dest at ho
  cases ho with
  | send d' k₁ hne hdead ho =>
    obtain rfl := proc2pid_inj hdest
    generalize hk : (stamp (save k) p (k.la p m)).note (.call p d (Message.load
      (stamp (save k) p (k.la p m)).mem (k.la p m))) = k₀ at ho
    have hmem : (stamp (save k) p (k.la p m)).mem = k₀.mem := by rw [← hk]; rfl
    have htab : k₀.procTable = k.procTable := by rw [← hk]; rfl
    rw [hmem] at hload hstamp
    cases ho with
    | handOff dst ha hdst hmsg hf hto =>
      have hrest : SameRest t k (restart (handOff k₀ p d dst (k.la p m))) :=
        ((handOff_rest k₀ p d dst (k.la p m)).of_table htab).restart
      have hw : k.waits d = _ := (congrFun (waits_of_table htab) d).symm.trans
        (waits_of_receiving ha.1 hf)
      have hown := hd _ _ hw
      have hdst' : dst = k.la d (k₀.procTable d).pMsg := by
        rw [va2la_eq hdst, Kernel.la, htab]
      refine ⟨.handed _ _ hw ha.2 (fun q => ?_) ?_ ?_, hrest⟩
      · rw [← waits_of_table htab]
        exact handOff_waits k₀ hf _ _ q
      · rw [Kernel.msgAt, hrest.la, ← hdst', ← hload, restart_mem, handOff_mem,
          Message.load_memcpy ((hdst' ▸ hown).apart hm hne)]
      · rw [restart_mem, handOff_mem]
        exact (hstamp _ (.inl rfl)).trans (.memcpy (hdst' ▸ hown) hm hne (.inr rfl))
    | queueUp last ha hr hm0 hl =>
      have hrest : SameRest t k (restart (queueUp k₀ p d m last)) :=
        ((queueUp_rest k₀ p d m last).of_table htab).restart
      refine ⟨.queued (fun src a hw => ?_) (fun q => ?_) ?_ ?_, hrest⟩
      · rw [← waits_of_table htab] at hw
        obtain ⟨hrec, hfrom, -⟩ := receiving_of_waits hw
        exact not_or.1 fun hsrc => ha ⟨hrec, hfrom ▸ hsrc⟩
      · rw [← waits_of_table htab]
        exact queueUp_waits k₀ (by rw [htab]; exact hp) last q
      · rw [Kernel.msgAt, hrest.la, ← hload, restart_mem, queueUp_mem]
      · rw [restart_mem, queueUp_mem]
        exact hstamp _ rfl

theorem takeFrom_rest (k : Kernel) (p s : Slot) (prev : Option Slot) (dst src : Addr) :
    SameRest t k (takeFrom k p s prev dst src) :=
  ⟨fun q => by rw [takeFrom_procTable], fun q _ h => by rw [takeFrom_procTable, h]⟩

theorem waitFor_rest (k : Kernel) (p : Slot) (src : Int) (m : Addr) :
    SameRest t k (waitFor k p src m) := by
  refine ⟨fun q => ?_, fun q _ h => ?_⟩ <;> by_cases hq : q = p
  · simp [waitFor, hq]
  · simp [waitFor, hq]
  · simpa [waitFor, hq] using hq ▸ h
  · simpa [waitFor, hq] using h

theorem takeInterrupt_rest (k : Kernel) (p : Slot) (dst : Addr) :
    SameRest t k (takeInterrupt k p dst) := by
  refine ⟨fun q => ?_, fun q _ h => ?_⟩ <;> by_cases hq : q = p
  · simp [takeInterrupt, hq]
  · simp [takeInterrupt, hq]
  · simp [takeInterrupt, hq]
  · simpa [takeInterrupt, hq] using h

theorem takeInterrupt_mem (k : Kernel) (p : Slot) (dst : Addr) :
    (takeInterrupt k p dst).mem = Message.store k.mem dst hardIntMsg := by
  simp only [takeInterrupt, Kernel.set_mem]

theorem receive_seen {src : Int} {m : Addr} (hp : (k.procTable p).pFlags = 0)
    (hm : OwnsMsg owner p (k.la p m))
    (hs : ∀ s dest a, k.waits s = .toSend dest a → OwnsMsg owner s (k.la s a))
    (h : sendrec k p .receive src m = .ok k') :
    ReceiveSeen k p src m k' ∧ MemOf owner (· = p) k.mem k'.mem ∧ SameRest t k k' := by
  obtain ⟨la, k₁, hla, ho, rfl⟩ := sendrec_ok h
  obtain rfl : la = k.la p m := va2la_eq hla
  have hstamp : MemOf owner (· = p) k.mem (stamp (save k) p (k.la p m)).mem :=
    .setSource (S := (· = p)) hm rfl _
  cases ho with
  | receive srcDest k₁ ho =>
    generalize hk : stamp (save k) p (k.la p m) = k₀ at ho hstamp
    have htab : k₀.procTable = k.procTable := by rw [← hk]; rfl
    cases ho with
    | takeInterrupt hint hsrc =>
      have hrest : SameRest t k (restart (takeInterrupt k₀ p (k.la p m))) :=
        ((takeInterrupt_rest k₀ p (k.la p m)).of_table htab).restart
      refine ⟨.interrupt (htab ▸ hint) ?_ ?_, ?_, hrest⟩
      · rw [← waits_of_table htab]
        exact takeInterrupt_waits k₀ _
      · rw [Kernel.msgAt, hrest.la, restart_mem, takeInterrupt_mem, Message.load_store]
      · rw [restart_mem, takeInterrupt_mem]
        exact hstamp.trans (.store (S := (· = p)) hm rfl _)
    | takeFrom s prev a hn hsel hany hf hto hprev ha =>
      have hrest : SameRest t k (restart (takeFrom k₀ p s prev (k.la p m) a)) :=
        ((takeFrom_rest k₀ p s prev (k.la p m) a).of_table htab).restart
      have hw : k.waits s = .toSend (proc2pid p) (k.procTable s).pMsg := by
        rw [waits_eq_toSend, ← htab]
        exact ⟨by rw [Sending, hf]; decide, hto, rfl⟩
      have hsp : s ≠ p := by
        rintro rfl
        rw [htab, hp] at hf
        exact absurd hf (by decide)
      have ha' : a = k.la s (k.procTable s).pMsg := by rw [va2la_eq ha, Kernel.la, htab]
      have hown : OwnsMsg owner s a := ha' ▸ hs _ _ _ hw
      refine ⟨.took s _ hw hsel hsp (fun q => ?_) ?_, ?_, hrest⟩
      · rw [← waits_of_table htab]
        exact takeFrom_waits k₀ hf _ _ _ q
      · rw [Kernel.msgAt, hrest.la, restart_mem, takeFrom_mem,
          Message.load_memcpy (hm.apart hown hsp.symm), hstamp.load hown hsp, Kernel.msgAt, ← ha']
      · rw [restart_mem, takeFrom_mem]
        exact hstamp.trans (.memcpy hm hown hsp.symm rfl)
    | waitFor hint hany hsel hsrc hm0 hto =>
      have hrest : SameRest t k (restart (waitFor k₀ p src m)) :=
        ((waitFor_rest k₀ p src m).of_table htab).restart
      refine ⟨.waits (fun s a hse hw => ?_) (fun q => ?_), hstamp, hrest⟩
      · refine hsel s hse (sendsTo_iff.2 ⟨a, ?_⟩)
        rw [waits_of_table htab]
        exact hw
      · rw [← waits_of_table htab]
        exact waitFor_waits k₀ src q

theorem wake_rest (k : Kernel) (t : Slot) (a : Addr) : SameRest t k (wake k t a) := by
  refine ⟨fun q => ?_, fun q hq h => by simpa [wake, hq] using h⟩
  by_cases hq : q = t <;> simp [wake, hq]

theorem wake_mem (k : Kernel) (t : Slot) (a : Addr) : (wake k t a).mem = hardIntMem k a := by
  simp only [wake, Kernel.set_mem]

theorem pend_rest (k : Kernel) (t : Slot) : SameRest t k (pend k t) := by
  refine ⟨fun q => ?_, fun q hq h => by simpa [pend, hq] using h⟩
  by_cases hq : q = t <;> simp [pend, hq]

theorem inform_seen (owner : Addr → Slot)
    (hw : ∀ src a, k.waits p = .toReceive src a → OwnsMsg owner p a)
    (h : informInt k p = .ok k') : InformSeen owner k p k' ∧ SameRest p k k' := by
  have ho := informInt_ok h
  generalize hk : k.note (.informed p) = k₀ at ho
  have htab : k₀.procTable = k.procTable := by rw [← hk]; rfl
  have hmem : k₀.mem = k.mem := by rw [← hk]; rfl
  cases ho with
  | wake ha hf hto =>
    have hwaits : k.waits p = _ := (congrFun (waits_of_table htab) p).symm.trans
      (waits_of_receiving ha.1 hf)
    have hown := hw _ _ hwaits
    refine ⟨.woken _ _ hwaits (fun q => ?_) ?_ ?_, (wake_rest k₀ p _).of_table htab⟩
    · rw [← waits_of_table htab]
      exact wake_waits k₀ hf q
    · rw [wake_mem, hardIntMem, Message.load_setType]
    · rw [wake_mem, ← hmem]
      exact MemOf.trans (.setSource (S := (· = p)) hown rfl _) (.setType (S := (· = p)) hown rfl _)
  | pend hn =>
    refine ⟨.pending ?_ hmem, (pend_rest k₀ p).of_table htab⟩
    rw [← waits_of_table htab]
    exact pend_waits k₀

end MyOS
