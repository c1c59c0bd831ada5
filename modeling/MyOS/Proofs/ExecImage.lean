import MyOS.Proofs.ExecArgs
import MyOS.Proofs.ExecFiles
import Mathlib.Data.List.Pairwise

/-!
# The image a new program starts with

The segments are loaded and the rest of a segment is left as it is; then the arguments are put at
the end of the image, and the reply is written where the caller's message was. So the image is that
of the file just when the segments lie in the file and in the image, what is left was zero, and
what is written over them later happens to be what they hold; and where nothing is, that is all.
-/

namespace MyOS

open Memory Block

variable {fs fs' : Fs} {mem mem' : Mem} {k k' : Kernel} {src : Slot} {size : BitVec 32}

/-- What byte `i` of a segment is to be. -/
def ProgHdr.byte (f : Bytes) (h : ProgHdr) (i : ℕ) : Byte :=
  if i < h.pFilesz.toNat then f (h.pOffset.toNat + i) else 0

/-- The memory of a process holds a segment of a file of `size` bytes. -/
structure SegmentLoaded (f : Bytes) (size : BitVec 32) (user : Addr → Byte) (h : ProgHdr) :
    Prop where
  file : ∀ i < h.pFilesz.toNat, (h.pOffset.toNat + i : ℕ) < size.toInt ∧
    h.pVaddr.toNat + i < procImageSizeDefault.toNat ∧
    user (h.pVaddr + BitVec.ofNat 32 i) = f (h.pOffset.toNat + i)
  zero : ∀ i < h.pMemsz.toNat, h.pFilesz.toNat ≤ i →
    h.pVaddr.toNat + i < procImageSizeDefault.toNat ∧ user (h.pVaddr + BitVec.ofNat 32 i) = 0

/-- The reply to a request, as its caller gets it. -/
def replyTo (msg : Message) : Message :=
  { msg with
    source := BitVec.ofInt 32 (proc2pid taskMm)
    type := MsgType.syscallRet.code
    m3i1 := 0 }

/-- What the request does not spoil of a segment. After the segments the arguments are written, at
`orig_stack`, and then the reply, where the message of the caller was. -/
structure SegmentKept (k : Kernel) (src : Slot) (mem : Mem) (size : BitVec 32) (msg : Message)
    (h : ProgHdr) : Prop where
  inFile : h.Contained size
  inImage : InSegment h.pVaddr h.extent
  wasZero : ∀ i < h.extent, h.pFilesz.toNat ≤ i →
    ¬ Within (h.pVaddr + BitVec.ofNat 32 i) (k.procTable src).pMsg Message.size →
    ¬ Within (h.pVaddr + BitVec.ofNat 32 i) (origStack procImageSizeDefault) msg.bufLen.toNat →
    userMem k src (h.pVaddr + BitVec.ofNat 32 i) = 0
  args : ∀ i < h.extent, ∀ block,
    ¬ Within (h.pVaddr + BitVec.ofNat 32 i) (k.procTable src).pMsg Message.size →
    Within (h.pVaddr + BitVec.ofNat 32 i) (origStack procImageSizeDefault) msg.bufLen.toNat →
    argBlock procImageSizeDefault msg (bytesAt (patched mem (filePatches k src (bytesAt mem mmbuf)))
      (((k.procTable src).ldts 1).linear + msg.buf)) = .ok block →
    block (h.pVaddr + BitVec.ofNat 32 i - origStack procImageSizeDefault).toNat =
      h.byte (bytesAt mem mmbuf) i
  reply : ∀ i < h.extent,
    Within (h.pVaddr + BitVec.ofNat 32 i) (k.procTable src).pMsg Message.size →
    (replyTo msg).byte (h.pVaddr + BitVec.ofNat 32 i - (k.procTable src).pMsg).toNat =
      h.byte (bytesAt mem mmbuf) i

/-- The segment shares no byte with the place the arguments are put, nor with the message the reply
is written to. -/
structure ProgHdr.Spared (pMsg : Addr) (bufLen : ℕ) (h : ProgHdr) : Prop where
  args : Apart h.pVaddr h.extent (origStack procImageSizeDefault) bufLen
  msg : Apart h.pVaddr h.extent pMsg Message.size

/-- The segment lies in the file and in the image, and where it has nothing in the file there was
nothing but zeros. -/
structure ProgHdr.Placed (size : BitVec 32) (user : Addr → Byte) (h : ProgHdr) : Prop where
  inFile : h.Contained size
  inImage : InSegment h.pVaddr h.extent
  wasZero : ∀ i < h.extent, h.pFilesz.toNat ≤ i → user (h.pVaddr + BitVec.ofNat 32 i) = 0

theorem segmentKept_iff {msg : Message} {h : ProgHdr}
    (hs : h.Spared (k.procTable src).pMsg msg.bufLen.toNat) :
    SegmentKept k src mem size msg h ↔ h.Placed size (userMem k src) := by
  have hself : ∀ i < h.extent, Within (h.pVaddr + BitVec.ofNat 32 i) h.pVaddr h.extent := by
    intro i hi
    refine within_add_ofNat _ hi ?_
    unfold ProgHdr.extent
    omega
  have hargs : ∀ i < h.extent, ¬ Within (h.pVaddr + BitVec.ofNat 32 i)
      (origStack procImageSizeDefault) msg.bufLen.toNat :=
    fun i hi => hs.args _ (hself i hi)
  have hmsg : ∀ i < h.extent, ¬ Within (h.pVaddr + BitVec.ofNat 32 i)
      (k.procTable src).pMsg Message.size :=
    fun i hi => hs.msg _ (hself i hi)
  constructor
  · rintro ⟨hfile, himage, hzero, -, -⟩
    exact ⟨hfile, himage, fun i hi hle => hzero i hi hle (hmsg i hi) (hargs i hi)⟩
  · rintro ⟨hfile, himage, hzero⟩
    refine ⟨hfile, himage, fun i hi hle _ _ => hzero i hi hle, fun i hi _ _ hw => ?_,
      fun i hi hw => ?_⟩
    · exact absurd hw (hargs i hi)
    · exact absurd hw (hmsg i hi)

/-! ## The reply -/

theorem va2la_native {p : Slot} {va la : Addr} (hp : p.val < nrTasks + nrNativeProcs)
    (h : va2la k p va = .ok la) : la = va := by
  unfold va2la at h
  rw [if_pos hp, assert_bind_eq_ok] at h
  exact (Except.ok.inj h.2).symm.trans h.1

/-- A message of the memory manager to a process that waits for it is copied there. -/
theorem sendrec_awaited {a : Addr} (hw : Awaits k src taskMm)
    (h : sendrec k taskMm .send (proc2pid src) a = .ok k') : ∃ dst,
    va2la k src (k.procTable src).pMsg = .ok dst ∧
    (k'.procTable src).ldts = (k.procTable src).ldts ∧
    k'.mem = memcpy (Message.setSource k.mem a (BitVec.ofInt 32 (proc2pid taskMm))) dst a
      Message.size := by
  obtain ⟨a', k₁, ha, hout, rfl⟩ := sendrec_ok h
  obtain rfl := va2la_native (by decide) ha
  generalize hdest : proc2pid src = dest at hout
  cases hout with
  | send d _ hne hdl hso =>
    obtain rfl : d = src := Fin.ext (by unfold proc2pid at hdest; omega)
    cases hso with
    | handOff dst hawaits hdst =>
      refine ⟨dst, ?_, ?_, ?_⟩
      · exact (va2la_congr (by simp) d _).symm.trans hdst
      · simp [handOff_procTable]
      · simp [handOff, copy, stamp]
    | queueUp last hno => exact absurd hw hno

theorem copied_byte {mem : Mem} {dst a x : Addr}
    (happart : Within x dst Message.size → Apart dst Message.size a Message.size) :
    memcpy mem dst a Message.size x = if Within x dst Message.size then
      (Message.load mem a).byte (x - dst).toNat else mem x := by
  split_ifs with hx
  · rw [memcpy_eq_poke _ _ _ _ (by decide) (happart hx), poke, if_pos hx, Message.byte_load _ _ hx]
  · exact memcpy_of_not_within (by decide) hx

/-- The message a process sends, with its number in it. -/
theorem sent_byte {mem : Mem} {a x : Addr} {m : Message} {v : BitVec 32}
    (hx : ¬ Within x a Message.size) :
    Message.setSource (Message.store mem a m) a v x = mem x := by
  have hword : ¬ Within x a 4 := fun hw => hx (Nat.lt_trans hw (by decide))
  exact (poke_of_not_within hword).trans (poke_of_not_within hx)

theorem Forked.base_range (hf : Forked k src) :
    0xA00000 ≤ ((k.procTable src).ldts 1).linear.toNat ∧
      ((k.procTable src).ldts 1).linear.toNat ≤ 0x2500000 := by
  have hp : src.val < 37 := src.isLt
  have hbase : ((k.procTable src).ldts 1).linear.toNat = 0xA00000 + (src.val - 9) * 0x100000 :=
    hf.image.2
  omega

theorem add_left_sub (base va a : Addr) : base + va - (base + a) = va - a := by bv_omega

theorem within_add_left {base va a : Addr} {n : ℕ} :
    Within (base + va) (base + a) n ↔ Within va a n := by
  rw [Within, Within, add_left_sub]

/-- What the caller has in its image after the reply: the reply where its message was, and the rest
as before. -/
theorem reply_byte {mm : ExecEnv} (hf : Forked k src) (hw : Awaits k src taskMm)
    (h : execReply mm.toMmEnv k src 0 = .ok k') {va : Addr} (hva : va.toNat < 0x100000) :
    userMem k' src va =
      if Within va (k.procTable src).pMsg Message.size then
        (replyTo (Message.load k.mem mm.mmMsg)).byte (va - (k.procTable src).pMsg).toNat
      else userMem k src va := by
  obtain ⟨hlo, hhi⟩ := hf.base_range
  unfold execReply mmSend at h
  obtain ⟨dst, hdst, hldts, hmem⟩ := sendrec_awaited (by exact hw) h
  have hdst' : dst = ((k.procTable src).ldts 1).linear + (k.procTable src).pMsg := va2la_eq hdst
  unfold userMem
  rw [hldts, hmem, hdst']
  dsimp only
  generalize ((k.procTable src).ldts 1).linear = base at hlo hhi
  generalize (k.procTable src).pMsg = pMsg
  have hhigh : ¬ Within (base + va) mm.mmMsg Message.size := by
    intro hx
    have := mm.low hx
    bv_omega
  have happart : Within (base + va) (base + pMsg) Message.size →
      Apart (base + pMsg) Message.size mm.mmMsg Message.size := by
    intro hx y hy hy'
    have := mm.low hy'
    have hsize : Message.size = 48 := rfl
    unfold Within at hx hy
    bv_omega
  rw [copied_byte happart, add_left_sub]
  by_cases hx : Within va pMsg Message.size
  · rw [if_pos (within_add_left.2 hx), if_pos hx, Message.load_setSource, Message.load_store]
    rfl
  · rw [if_neg (mt within_add_left.1 hx), if_neg hx, sent_byte hhigh]

/-! ## The request -/

theorem copyArgs_ok (hf : Forked k src) {imageSize : BitVec 32} {msg : Message}
    (h : copyArgs k src imageSize msg mem = .ok mem') : msg.bufLen.toNat ≤ procOriginStack ∧
      ∃ block, argBlock imageSize msg
          (bytesAt mem (((k.procTable src).ldts 1).linear + msg.buf)) = .ok block ∧
        mem' = poke mem (((k.procTable src).ldts 1).linear + origStack imageSize) msg.bufLen.toNat
          block := by
  unfold copyArgs at h
  split_ifs at h with hlen
  rw [hf.va2la, hf.va2la] at h
  obtain ⟨la, hla, h⟩ := bind_eq_ok.1 h
  obtain rfl := Except.ok.inj hla
  obtain ⟨block, hblock, h⟩ := bind_eq_ok.1 h
  obtain ⟨la, hla, h⟩ := bind_eq_ok.1 h
  obtain rfl := Except.ok.inj hla
  exact ⟨not_lt.1 hlen, block, hblock, (Except.ok.inj h).symm⟩

/-- A request that returns 0 has read its file, loaded it and put the arguments in place; it keeps
what its caller waits for. -/
theorem doExec_loaded {mm : MmEnv} (h : doExec mm fs k src = .ok (0, fs', k')) :
    ∃ size mem₀ mem₁, ExecReads mm fs k src size mem₀ ∧
      loadSegments k src procImageSizeDefault (2 ^ 16) 0 mem₀ = .ok mem₁ ∧
      copyArgs k src procImageSizeDefault (Message.load mem₁ mm.mmMsg) mem₁ = .ok k'.mem ∧
      (k'.procTable src).ldts = (k.procTable src).ldts ∧
      (k'.procTable src).pMsg = (k.procTable src).pMsg ∧
      (Awaits k src taskMm → Awaits k' src taskMm) := by
  cases doExec_done h with
  | loaded path size _ mem₀ mem₁ mem₂ hpath hread hload hcopy =>
    refine ⟨size, mem₀, mem₁, ⟨path, fs', hpath, hread⟩, hload, hcopy, ?_, ?_, fun hw => ?_⟩
    · simp
    · simp
    · simpa [Awaits] using hw

theorem ExecReads.unique {mm : MmEnv} {size' : BitVec 32} (h : ExecReads mm fs k src size mem)
    (h' : ExecReads mm fs k src size' mem') : size = size' ∧ mem = mem' := by
  obtain ⟨path, fs₁, hpath, hread⟩ := h
  obtain ⟨path', fs₂, hpath', hread'⟩ := h'
  obtain rfl := Except.ok.inj (hpath.symm.trans hpath')
  have heq := Except.ok.inj (hread.symm.trans hread')
  exact ⟨Option.some.inj (Prod.mk.inj heq).1, (Prod.mk.inj (Prod.mk.inj heq).2).2⟩

/-! ## Segments that lie in the image -/

theorem segmentLoaded_iff {f : Bytes} {user : Addr → Byte} {h : ProgHdr} :
    SegmentLoaded f size user h ↔ h.Contained size ∧ InSegment h.pVaddr h.extent ∧
      ∀ i < h.extent, user (h.pVaddr + BitVec.ofNat 32 i) = h.byte f i := by
  unfold ProgHdr.Contained InSegment ProgHdr.extent
  constructor
  · rintro ⟨hfile, hzero⟩
    have hlast : 0 < max h.pFilesz.toNat h.pMemsz.toNat →
        h.pVaddr.toNat + (max h.pFilesz.toNat h.pMemsz.toNat - 1) <
          procImageSizeDefault.toNat := by
      intro hpos
      by_cases hle : h.pMemsz.toNat ≤ h.pFilesz.toNat
      · have := (hfile (max h.pFilesz.toNat h.pMemsz.toNat - 1) (by omega)).2.1
        omega
      · have := (hzero (max h.pFilesz.toNat h.pMemsz.toNat - 1) (by omega) (by omega)).1
        omega
    refine ⟨?_, by omega, fun i hi => ?_⟩
    · rcases Nat.eq_zero_or_pos h.pFilesz.toNat with hz | hpos
      · exact .inl hz
      · have := hfile (h.pFilesz.toNat - 1) (by omega)
        exact .inr (by omega)
    · unfold ProgHdr.byte
      split_ifs with hlt
      · exact (hfile i hlt).2.2
      · exact (hzero i (by omega) (by omega)).2
  · rintro ⟨hfile, himage, hbyte⟩
    refine ⟨fun i hi => ⟨by omega, by omega, ?_⟩, fun i hi hle => ⟨by omega, ?_⟩⟩
    · rw [hbyte i (by omega), ProgHdr.byte, if_pos hi]
    · rw [hbyte i (by omega), ProgHdr.byte, if_neg (by omega)]

/-- What is loaded of a segment that shares no byte with another one. -/
theorem filePatches_byte {f : Bytes} (hapart : (segments f).Pairwise fun h h' =>
      Apart h.pVaddr h.extent h'.pVaddr h'.extent) {h : ProgHdr} (hh : h ∈ segments f) {i : ℕ}
    (hi : i < h.extent) :
    patched mem (filePatches k src f)
      (((k.procTable src).ldts 1).linear + (h.pVaddr + BitVec.ofNat 32 i)) =
      if i < h.pFilesz.toNat then h.byte f i
      else mem (((k.procTable src).ldts 1).linear + (h.pVaddr + BitVec.ofNat 32 i)) := by
  have hext : ∀ h : ProgHdr, h.pFilesz.toNat ≤ h.extent ∧ h.extent ≤ 2 ^ 32 := by
    intro h
    unfold ProgHdr.extent
    omega
  have hcov : ∀ {h' : ProgHdr} {x : Addr},
      (h'.patch ((k.procTable src).ldts 1).linear f).Covers
          (((k.procTable src).ldts 1).linear + x) ↔
        Within x h'.pVaddr h'.pFilesz.toNat := ProgHdr.covers_patch.trans within_add_left
  have hself : Within (h.pVaddr + BitVec.ofNat 32 i) h.pVaddr h.extent :=
    within_add_ofNat _ hi (hext h).2
  split_ifs with hlt
  · have hpatches : (filePatches k src f).Pairwise fun p q =>
        Apart p.start p.len q.start q.len := by
      refine List.Pairwise.map _ (fun a b hab x hx hx' => ?_) hapart
      replace hx := ProgHdr.covers_patch.1 hx
      replace hx' := ProgHdr.covers_patch.1 hx'
      refine hab (x - ((k.procTable src).ldts 1).linear) ?_ ?_
      · have := (hext a).1
        unfold Within at hx ⊢
        bv_omega
      · have := (hext b).1
        unfold Within at hx' ⊢
        bv_omega
    have hcovers : (h.patch ((k.procTable src).ldts 1).linear f).Covers
        (((k.procTable src).ldts 1).linear + (h.pVaddr + BitVec.ofNat 32 i)) :=
      hcov.2 (within_add_ofNat _ hlt (by omega))
    have hidx : (((k.procTable src).ldts 1).linear + (h.pVaddr + BitVec.ofNat 32 i) -
        (((k.procTable src).ldts 1).linear + h.pVaddr)).toNat = i := by
      have := h.pFilesz.isLt
      bv_omega
    rw [patched_of_apart hpatches (List.mem_map_of_mem hh) hcovers, ProgHdr.byte, if_pos hlt]
    exact congrArg (fun j => f (h.pOffset.toNat + j)) hidx
  · refine patched_of_not_covers fun p hp hx => ?_
    obtain ⟨h', hh', rfl⟩ := List.mem_map.1 hp
    replace hx := hcov.1 hx
    by_cases heq : h = h'
    · subst heq
      have : (h.pVaddr + BitVec.ofNat 32 i - h.pVaddr).toNat = i := by
        have := (hext h).2
        unfold Within at hself
        bv_omega
      unfold Within at hx
      omega
    · have : Std.Symm fun h h' : ProgHdr => Apart h.pVaddr h.extent h'.pVaddr h'.extent :=
        ⟨fun a b hab => hab.symm⟩
      exact hapart.forall hh hh' heq _ hself (Nat.lt_of_lt_of_le hx (hext h').1)

/-- Of segments that lie in the file and in the image, what is in the image in the end. -/
theorem final_byte {mm : ExecEnv} {k₁ k₂ : Kernel} (hf : Forked k src) (hw : Awaits k src taskMm)
    (hexec : doExec mm.toMmEnv fs k src = .ok (0, fs', k₁))
    (hreply : execReply mm.toMmEnv k₁ src 0 = .ok k₂)
    (hread : ExecReads mm.toMmEnv fs k src size mem) (helf : IsElf (bytesAt mem mmbuf) size)
    (hc : ∀ h ∈ segments (bytesAt mem mmbuf), h.Contained size) :
    ∃ block, argBlock procImageSizeDefault (Message.load k.mem mm.mmMsg)
        (bytesAt (patched mem (filePatches k src (bytesAt mem mmbuf)))
          (((k.procTable src).ldts 1).linear + (Message.load k.mem mm.mmMsg).buf)) = .ok block ∧
      ∀ va : Addr, va.toNat < 0x100000 → userMem k₂ src va =
        if Within va (k.procTable src).pMsg Message.size then
          (replyTo (Message.load k.mem mm.mmMsg)).byte (va - (k.procTable src).pMsg).toNat
        else if Within va (origStack procImageSizeDefault)
            (Message.load k.mem mm.mmMsg).bufLen.toNat then
          block (va - origStack procImageSizeDefault).toNat
        else patched mem (filePatches k src (bytesAt mem mmbuf))
          (((k.procTable src).ldts 1).linear + va) := by
  obtain ⟨size', mem₀, mem₁, hread', hload, hcopy, hldts, hpMsg, hawaits⟩ := doExec_loaded hexec
  obtain ⟨rfl, rfl⟩ := hread.unique hread'
  have hstack : procOriginStack = 0x400 := rfl
  have hmem₁ := loadSegments_contained hf hread helf hc hload
  obtain ⟨path, fs₁, -, hread⟩ := hread
  -- the message that names the arguments is still the one of the request
  have hmsg : Message.load mem₁ mm.mmMsg = Message.load k.mem mm.mmMsg := by
    refine Message.load_congr fun i hi => ?_
    have hlow := mm.low (within_add_ofNat mm.mmMsg hi (by decide))
    rw [hmem₁, patched_of_not_covers, execRead_mem hread (not_within_mmbuf_low hlow)]
    intro p hp hx
    have := filePatches_high hf hc hp hx
    omega
  rw [hmsg] at hcopy
  obtain ⟨hlen, block, hblock, hmem₂⟩ := copyArgs_ok hf hcopy
  rw [hmem₁] at hblock hmem₂
  refine ⟨block, hblock, fun va hva => ?_⟩
  have hf₁ : Forked k₁ src := by
    obtain ⟨mm, k₀, parent, k', hfork, hl⟩ := hf
    exact ⟨mm, k₀, parent, k', hfork, hldts.trans hl⟩
  have hmsg₁ : Message.load k₁.mem mm.mmMsg = Message.load k.mem mm.mmMsg := by
    rw [← hmsg, hmem₁, hmem₂]
    refine Message.load_poke fun x hx hx' => ?_
    have hseg : InSegment (origStack procImageSizeDefault)
        (Message.load k.mem mm.mmMsg).bufLen.toNat := by
      refine .inr ?_
      have : (origStack procImageSizeDefault).toNat = 0xFFC00 := by decide
      have : procImageSizeDefault.toNat = 0x100000 := by decide
      omega
    have := hf.high hseg hx'
    have := mm.low hx
    omega
  rw [reply_byte hf₁ (hawaits hw) hreply hva, hmsg₁, hpMsg]
  by_cases hx : Within va (k.procTable src).pMsg Message.size
  · rw [if_pos hx, if_pos hx]
  rw [if_neg hx, if_neg hx, userMem, hldts, hmem₂, poke]
  by_cases hx : Within va (origStack procImageSizeDefault)
      (Message.load k.mem mm.mmMsg).bufLen.toNat
  · rw [if_pos (within_add_left.2 hx), if_pos hx]
    rw [add_left_sub]
  · rw [if_neg (mt within_add_left.1 hx), if_neg hx]

/-- The caller's image is that of the file just when no segment is spoilt. -/
theorem segmentsLoaded_iff {mm : ExecEnv} {k₁ k₂ : Kernel} (hf : Forked k src)
    (hw : Awaits k src taskMm) (hexec : doExec mm.toMmEnv fs k src = .ok (0, fs', k₁))
    (hreply : execReply mm.toMmEnv k₁ src 0 = .ok k₂)
    (hread : ExecReads mm.toMmEnv fs k src size mem) (helf : IsElf (bytesAt mem mmbuf) size)
    (hapart : (segments (bytesAt mem mmbuf)).Pairwise fun h h' =>
      Apart h.pVaddr h.extent h'.pVaddr h'.extent) :
    (∀ h ∈ segments (bytesAt mem mmbuf),
        SegmentLoaded (bytesAt mem mmbuf) size (userMem k₂ src) h) ↔
      ∀ h ∈ segments (bytesAt mem mmbuf),
        SegmentKept k src mem size (Message.load k.mem mm.mmMsg) h := by
  have hfile : ∀ va, va.toNat < 0x100000 → mem (((k.procTable src).ldts 1).linear + va) =
      userMem k src va := by
    intro va hva
    obtain ⟨path, fs₁, -, hread⟩ := hread
    refine execRead_mem hread (not_within_mmbuf le_rfl ?_)
    have := hf.base_range
    bv_omega
  -- the bytes of a segment, once all segments lie where they should
  have hva : ∀ {h : ProgHdr} {i : ℕ}, InSegment h.pVaddr h.extent → i < h.extent →
      (h.pVaddr + BitVec.ofNat 32 i).toNat < 0x100000 := by
    intro h i hseg hi
    have hsize : procImageSizeDefault.toNat = 0x100000 := rfl
    unfold InSegment at hseg
    bv_omega
  constructor
  · intro hall h hh
    have hc : ∀ h ∈ segments (bytesAt mem mmbuf), h.Contained size :=
      fun h hh => (segmentLoaded_iff.1 (hall h hh)).1
    obtain ⟨hin, himage, hbyte⟩ := segmentLoaded_iff.1 (hall h hh)
    obtain ⟨block, hblock, hfinal⟩ := final_byte hf hw hexec hreply hread helf hc
    refine ⟨hin, himage, fun i hi hle hmsg hargs => ?_, fun i hi b hmsg hargs hb' => ?_,
      fun i hi hmsg => ?_⟩
    all_goals
      have hb := hbyte i hi
      rw [hfinal _ (hva himage hi)] at hb
    · rw [if_neg hmsg, if_neg hargs, filePatches_byte hapart hh hi, if_neg (not_lt.2 hle),
        hfile _ (hva himage hi), ProgHdr.byte, if_neg (not_lt.2 hle)] at hb
      exact hb
    · obtain rfl := Except.ok.inj (hblock.symm.trans hb')
      rwa [if_neg hmsg, if_pos hargs] at hb
    · rwa [if_pos hmsg] at hb
  · intro hall h hh
    have hc : ∀ h ∈ segments (bytesAt mem mmbuf), h.Contained size := fun h hh => (hall h hh).inFile
    obtain ⟨block, hblock, hfinal⟩ := final_byte hf hw hexec hreply hread helf hc
    obtain ⟨hin, himage, hzero, hargs, hmsg⟩ := hall h hh
    refine segmentLoaded_iff.2 ⟨hin, himage, fun i hi => ?_⟩
    rw [hfinal _ (hva himage hi)]
    split_ifs with h₁ h₂
    · exact hmsg i hi h₁
    · exact hargs i hi block h₁ h₂ hblock
    · rw [filePatches_byte hapart hh hi]
      split_ifs with hlt
      · rfl
      · rw [hfile _ (hva himage hi), hzero i hi (not_lt.1 hlt) h₁ h₂, ProgHdr.byte, if_neg hlt]

/-- Where no segment shares a byte with the place of the arguments or with the caller's message, the
caller's image is that of the file just when the segments lie in the file and in the image, and what
they do not have in the file was zero. -/
theorem exec_image_iff {mm : ExecEnv} {k₁ k₂ : Kernel} (hf : Forked k src)
    (hw : Awaits k src taskMm) (hexec : doExec mm.toMmEnv fs k src = .ok (0, fs', k₁))
    (hreply : execReply mm.toMmEnv k₁ src 0 = .ok k₂)
    (hread : ExecReads mm.toMmEnv fs k src size mem) (helf : IsElf (bytesAt mem mmbuf) size)
    (hapart : (segments (bytesAt mem mmbuf)).Pairwise fun h h' =>
      Apart h.pVaddr h.extent h'.pVaddr h'.extent)
    (hspared : ∀ h ∈ segments (bytesAt mem mmbuf),
      h.Spared (k.procTable src).pMsg (Message.load k.mem mm.mmMsg).bufLen.toNat) :
    (∀ h ∈ segments (bytesAt mem mmbuf),
        SegmentLoaded (bytesAt mem mmbuf) size (userMem k₂ src) h) ↔
      ∀ h ∈ segments (bytesAt mem mmbuf), h.Placed size (userMem k src) := by
  rw [segmentsLoaded_iff hf hw hexec hreply hread helf hapart]
  exact forall₂_congr fun h hh => segmentKept_iff (hspared h hh)

/-! ## A file with one segment -/

/-- The child of a fork executes a file with a segment of eight bytes, four of them in the file. -/
theorem exec_image_iff_child : ∃ fs k k₂ mem, Forked k 9 ∧ Awaits k 9 taskMm ∧
    ExecReads execEnv64.toMmEnv fs k 9 84 mem ∧
    segments (bytesAt mem mmbuf) = [⟨ptLoad, 0, 0x1000, 4, 8⟩] ∧
    ∀ h ∈ segments (bytesAt mem mmbuf),
      SegmentLoaded (bytesAt mem mmbuf) 84 (userMem k₂ 9) h := by
  have hany : execsFile (elf 0x1000 4 8) (fun fs k mem =>
      ((segments (bytesAt mem mmbuf) = [⟨ptLoad, 0, 0x1000, 4, 8⟩] ∧
        ePhoff (bytesAt mem mmbuf) = 52 ∧ ePhentsize (bytesAt mem mmbuf) = 32 ∧
        ePhnum (bytesAt mem mmbuf) = 1) ∧ (k.procTable 9).pMsg = 0x8000) ∧
      (doExec mmEnv64 fs k 9).toOption.any fun e =>
        e.1 = 0 ∧ (execReply mmEnv64 e.2.2 9 0).toOption.isSome) = true := by
    simp only [execsFile, withFile, fsCall, doOpen, openInode, createFile, allocAtOnce_eq]
    decide +kernel
  obtain ⟨fs, k, mem, hf, hw, hmem, hreads, hany⟩ := execsFile_ok hany
  obtain ⟨⟨⟨hseg, hoff, hent, hnum⟩, hpMsg⟩, hany⟩ := of_decide_eq_true hany
  obtain ⟨⟨r, fs₁, k₁⟩, hexec, hany⟩ := exists_ok_of_any hany
  obtain ⟨rfl, hany⟩ : r = 0 ∧ _ := of_decide_eq_true hany
  obtain ⟨k₂, hreply⟩ := Option.isSome_iff_exists.1 hany
  rw [toOption_eq_some] at hreply
  have hexec : doExec execEnv64.toMmEnv fs k 9 = .ok (0, fs₁, k₁) := hexec
  have hreply : execReply execEnv64.toMmEnv k₁ 9 0 = .ok k₂ := hreply
  have happart : (segments (bytesAt mem mmbuf)).Pairwise fun h h' =>
      Apart h.pVaddr h.extent h'.pVaddr h'.extent := by
    rw [hseg]
    exact List.pairwise_singleton _ _
  have hlen : (Message.load k.mem execEnv64.mmMsg).bufLen = 4 := by
    rw [hmem, execMem, Message.load_store]
  have hzero : ∀ i < 8, execMem (0xA00000 + (0x1000 + BitVec.ofNat 32 i)) = 0 := by
    decide +kernel
  have hbase : ((k.procTable 9).ldts 1).linear = 0xA00000 := BitVec.eq_of_toNat_eq hf.image.2
  refine ⟨fs, k, k₂, mem, hf, hw, hreads, hseg, ?_⟩
  refine (exec_image_iff hf hw hexec hreply hreads (isElf_84 hoff hent hnum) happart ?_).2 ?_
  · rw [hseg, hpMsg, hlen]
    rintro h hh
    obtain rfl := List.mem_singleton.1 hh
    exact ⟨apart_of_le (by decide) (by decide), apart_of_le (by decide) (by decide)⟩
  · rw [hseg]
    rintro h hh
    obtain rfl := List.mem_singleton.1 hh
    refine ⟨.inr (by decide), .inr (by decide), fun i hi _ => ?_⟩
    have hlt : i < 8 := Nat.lt_of_lt_of_eq hi (by decide)
    rw [userMem, hbase, hmem]
    exact hzero i hlt

/-- A segment with nothing in the file, over the path of the request: its first byte is still the
one of the path. -/
theorem exec_keeps_old_bytes : ∃ fs k k₁ k₂ fs' mem h, Forked k 9 ∧ Awaits k 9 taskMm ∧
    doExec mmEnv64 fs k 9 = .ok (0, fs', k₁) ∧ execReply mmEnv64 k₁ 9 0 = .ok k₂ ∧
    ExecReads mmEnv64 fs k 9 84 mem ∧ segments (bytesAt mem mmbuf) = [h] ∧
    ¬ SegmentLoaded (bytesAt mem mmbuf) 84 (userMem k₂ 9) h := by
  have hany : execsFile (elf 0x3000 0 4) (fun fs k mem =>
      segments (bytesAt mem mmbuf) = [⟨ptLoad, 0, 0x3000, 0, 4⟩] ∧
      (doExec mmEnv64 fs k 9).toOption.any fun e =>
        e.1 = 0 ∧ (execReply mmEnv64 e.2.2 9 0).toOption.any fun k₂ =>
          userMem k₂ 9 0x3000 = 0x61) = true := by
    simp only [execsFile, withFile, fsCall, doOpen, openInode, createFile, allocAtOnce_eq]
    decide +kernel
  obtain ⟨fs, k, mem, hf, hw, -, hreads, hany⟩ := execsFile_ok hany
  obtain ⟨hseg, hany⟩ := of_decide_eq_true hany
  obtain ⟨⟨r, fs₁, k₁⟩, hexec, hany⟩ := exists_ok_of_any hany
  obtain ⟨rfl, hany⟩ : r = 0 ∧ _ := of_decide_eq_true hany
  obtain ⟨k₂, hreply, hany⟩ := exists_ok_of_any hany
  refine ⟨fs, k, k₁, k₂, fs₁, mem, _, hf, hw, hexec, hreply, hreads, hseg, fun hs => ?_⟩
  have hzero := (hs.zero 0 (by decide) (by decide)).2
  rw [BitVec.add_zero, of_decide_eq_true hany] at hzero
  exact absurd hzero (by decide)

end MyOS
