import MyOS.Proofs.Loader
import MyOS.Proofs.SmapAlloc

/-!
# The arguments under the new image

`do_exec` fetches the arguments of its caller after it has loaded the segments over the caller's
memory, so they survive just when nothing else is loaded where they are; and nothing keeps the
segments away from the place they are put back to.
-/

namespace MyOS

open Memory Block

/-! ## execv -/

theorem execvCount_ok : ∀ {argv : List (List Byte)} {n r : ℕ}, execvCount argv n = .ok r →
    r = n ∨ r + 4 < procOriginStack
  | [], _, _, h => .inl (Except.ok.inj h).symm
  | _ :: l, n, r, h => by
    unfold execvCount at h
    rw [assert_bind_eq_ok] at h
    rcases execvCount_ok h.2 with rfl | h'
    · exact .inr (by omega)
    · exact .inr h'

theorem execvStrings_ok {buf : Addr} : ∀ {argv : List (List Byte)} {q n r : ℕ} {f g : Bytes},
    execvStrings buf argv q n f = .ok (r, g) → r = n ∨ r < procOriginStack
  | [], _, _, _, _, _, h => .inl (Prod.mk.inj (Except.ok.inj h)).1.symm
  | s :: l, q, n, r, f, g, h => by
    unfold execvStrings at h
    rw [assert_bind_eq_ok] at h
    rcases execvStrings_ok h.2 with rfl | h'
    · exact .inr h.1
    · exact .inr h'

/-- The block lies in `arg_stack`. -/
theorem execv_len {argv : List (List Byte)} {buf : Addr} {init argStack : Bytes} {len : ℕ}
    (h : execv argv buf init = .ok (len, argStack)) : len < procOriginStack := by
  obtain ⟨n, hn, h⟩ := bind_eq_ok.1 h
  have hsize : procOriginStack = 0x400 := rfl
  rcases execvCount_ok hn with rfl | hn <;> rcases execvStrings_ok h with rfl | h <;> omega

/-! ## The block and the loader -/

/-- Where `BUF_LEN` and `BUF` lie in a message. -/
def bufLenOff : ℕ := 16
def bufOff : ℕ := 44

/-- The arguments as `do_exec` finds them after the segments have been loaded, and the place they
go to. -/
structure ArgsSurvive (mm : MmEnv) (base buf : Addr) (len : ℕ) (argStack f : Bytes) (mem : Mem) :
    Prop where
  named : (Message.load mem mm.mmMsg).bufLen = BitVec.ofNat 32 len ∧
    (Message.load mem mm.mmMsg).buf = buf
  copied : ∀ i < len, bytesAt mem (base + buf) i = argStack i
  apart : ∀ h ∈ segments f, Apart h.pVaddr h.extent (origStack procImageSizeDefault) len

/-- The bytes of the block, and those of the message that say where it is. -/
def ArgByte (mm : MmEnv) (base buf : Addr) (len : ℕ) (x : Addr) : Prop :=
  Within x (base + buf) len ∨ Within x (mm.mmMsg + BitVec.ofNat 32 bufLenOff) 4 ∨
    Within x (mm.mmMsg + BitVec.ofNat 32 bufOff) 4

theorem exists_of_within {x a : Addr} {n : ℕ} (h : Within x a n) :
    ∃ i < n, x = a + BitVec.ofNat 32 i :=
  ⟨(x - a).toNat, h, by rw [BitVec.ofNat_toNat, BitVec.setWidth_eq]; bv_omega⟩

theorem forall_within {a : Addr} {n : ℕ} (hn : n ≤ 2 ^ 32) {P : Addr → Prop} :
    (∀ x, Within x a n → P x) ↔ ∀ i < n, P (a + BitVec.ofNat 32 i) := by
  refine ⟨fun h i hi => h _ (within_add_ofNat a hi hn), fun h x hx => ?_⟩
  obtain ⟨i, hi, rfl⟩ := exists_of_within hx
  exact h i hi

theorem within_word {x a : Addr} {off : ℕ} (hoff : off + 4 ≤ Message.size)
    (hx : Within x (a + BitVec.ofNat 32 off) 4) : Within x a Message.size := by
  have : Message.size = 48 := rfl
  unfold Within at *
  bv_omega

/-- The block is found as it was built just when its bytes are there, and those of the message. -/
theorem argsFound_iff {mm : MmEnv} {base buf : Addr} {len : ℕ} {argStack : Bytes} {mem mem' : Mem}
    (hlen : len < procOriginStack)
    (hmsg : (Message.load mem mm.mmMsg).bufLen = BitVec.ofNat 32 len ∧
      (Message.load mem mm.mmMsg).buf = buf)
    (hargs : ∀ i < len, bytesAt mem (base + buf) i = argStack i) :
    (((Message.load mem' mm.mmMsg).bufLen = BitVec.ofNat 32 len ∧
        (Message.load mem' mm.mmMsg).buf = buf) ∧
      ∀ i < len, bytesAt mem' (base + buf) i = argStack i) ↔
      ∀ x, ArgByte mm base buf len x → mem' x = mem x := by
  have hsize : procOriginStack = 0x400 := rfl
  have hword : ∀ off, load32 mem' (mm.mmMsg + off) = load32 mem (mm.mmMsg + off) ↔
      ∀ x, Within x (mm.mmMsg + off) 4 → mem' x = mem x := by
    intro off
    rw [load32_eq_iff, forall_within (by decide)]
  have hblock : (∀ i < len, bytesAt mem' (base + buf) i = argStack i) ↔
      ∀ x, Within x (base + buf) len → mem' x = mem x := by
    rw [forall_within (by omega)]
    exact forall₂_congr fun i hi => by rw [← hargs i hi]; rfl
  have hnamed : ((Message.load mem' mm.mmMsg).bufLen = BitVec.ofNat 32 len ∧
      (Message.load mem' mm.mmMsg).buf = buf) ↔
      load32 mem' (mm.mmMsg + BitVec.ofNat 32 bufLenOff) =
          load32 mem (mm.mmMsg + BitVec.ofNat 32 bufLenOff) ∧
        load32 mem' (mm.mmMsg + BitVec.ofNat 32 bufOff) =
          load32 mem (mm.mmMsg + BitVec.ofNat 32 bufOff) := by
    rw [← hmsg.1, ← hmsg.2]
    rfl
  unfold ArgByte
  simp only [or_imp, forall_and]
  rw [hnamed, hblock, hword, hword, and_comm]

variable {fs : Fs} {mem mem' : Mem} {k : Kernel} {src : Slot}

/-- The file is read to neither the block nor the message. -/
theorem ExecReads.argByte {mm : ExecEnv} {size : BitVec 32} {buf x : Addr} {len : ℕ}
    (hf : Forked k src) (hread : ExecReads mm.toMmEnv fs k src size mem)
    (hbuf : buf.toNat + len ≤ procImageSizeDefault.toNat)
    (hx : ArgByte mm.toMmEnv ((k.procTable src).ldts 1).linear buf len x) : mem x = k.mem x := by
  obtain ⟨path, fs', -, hread⟩ := hread
  refine execRead_mem hread ?_
  rcases hx with hx | hx | hx
  · exact not_within_mmbuf le_rfl (hf.high (.inr hbuf) hx)
  · exact not_within_mmbuf_low (mm.low (within_word (by decide) hx))
  · exact not_within_mmbuf_low (mm.low (within_word (by decide) hx))

/-- The arguments survive just when the segments leave their bytes, and those of the fields that
name them, and none reaches the place they go to. -/
theorem argsSurvive_iff {mm : MmEnv} {base buf : Addr} {len : ℕ} {argStack f : Bytes}
    (hlen : len < procOriginStack)
    (hmsg : (Message.load mem mm.mmMsg).bufLen = BitVec.ofNat 32 len ∧
      (Message.load mem mm.mmMsg).buf = buf)
    (hargs : ∀ i < len, bytesAt mem (base + buf) i = argStack i) :
    ArgsSurvive mm base buf len argStack f mem' ↔
      (∀ h ∈ segments f, Apart h.pVaddr h.extent (origStack procImageSizeDefault) len) ∧
        ∀ x, ArgByte mm base buf len x → mem' x = mem x := by
  rw [← argsFound_iff hlen hmsg hargs]
  exact ⟨fun ⟨hnamed, hcopied, hapart⟩ => ⟨hapart, hnamed, hcopied⟩,
    fun ⟨hapart, hnamed, hcopied⟩ => ⟨hnamed, hcopied, hapart⟩⟩

/-- No segment is loaded over the arguments, over the message that names them or over the file in
`mmbuf`, and none reaches the place the arguments go to. -/
structure ArgsApart (mm : MmEnv) (base buf : Addr) (len : ℕ) (f : Bytes) : Prop where
  block : ∀ h ∈ segments f, Apart (base + h.pVaddr) h.pFilesz.toNat (base + buf) len
  msg : ∀ h ∈ segments f, Apart (base + h.pVaddr) h.pFilesz.toNat mm.mmMsg Message.size
  file : ∀ h ∈ segments f, Apart (base + h.pVaddr) h.pFilesz.toNat mmbuf mmbufSize
  target : ∀ h ∈ segments f, Apart h.pVaddr h.extent (origStack procImageSizeDefault) len

theorem ArgsApart.not_within {mm : MmEnv} {base buf x : Addr} {len : ℕ} {f : Bytes}
    (h : ArgsApart mm base buf len f) (hx : ArgByte mm base buf len x) {g : ProgHdr}
    (hg : g ∈ segments f) : ¬ Within x (base + g.pVaddr) g.pFilesz.toNat := by
  intro hw
  rcases hx with hx | hx | hx
  · exact h.block g hg x hw hx
  · exact h.msg g hg x hw (within_word (by decide) hx)
  · exact h.msg g hg x hw (within_word (by decide) hx)

theorem filePatches_high (hf : Forked k src) {f : Bytes} {size : BitVec 32}
    (hc : ∀ h ∈ segments f, h.Contained size) {x : Addr} {p : Patch}
    (hp : p ∈ filePatches k src f) (hx : p.Covers x) : 0xA00000 ≤ x.toNat := by
  obtain ⟨h, hh, rfl⟩ := List.mem_map.1 hp
  replace hx := ProgHdr.covers_patch.1 hx
  rcases hc h hh with hz | ⟨-, himage⟩
  · exact absurd (hz ▸ hx) (Nat.not_lt_zero _)
  · exact hf.high (.inr himage) hx

/-- What is loaded of a file whose segments lie in the file and in the image. -/
theorem loadSegments_contained (hf : Forked k src) {mm : MmEnv} {size : BitVec 32}
    (hread : ExecReads mm fs k src size mem) (helf : IsElf (bytesAt mem mmbuf) size)
    (hc : ∀ h ∈ segments (bytesAt mem mmbuf), h.Contained size)
    (hload : loadSegments k src procImageSizeDefault (2 ^ 16) 0 mem = .ok mem') :
    mem' = patched mem (filePatches k src (bytesAt mem mmbuf)) := by
  obtain ⟨path, fs', -, hread⟩ := hread
  have hnum : (ePhnum (bytesAt mem mmbuf)).toNat ≤ 0 + 2 ^ 16 := by
    have := (ePhnum (bytesAt mem mmbuf)).isLt
    omega
  rw [loadSegments_ok hf hload,
    loads_contained hf helf (execRead_size hread) hc _ _ _ (fun _ _ => rfl) hnum,
    patchesFrom_zero, filePatches]

/-- Arguments that no segment is loaded over survive, where none reaches the place they go to. Of an
image whose segments lie in the file and in the image they survive just when none reaches that place
and, of the segments over a byte of the block, the last one has the same byte in the file. -/
theorem exec_args_iff {mm : ExecEnv} {size : BitVec 32} {argv : List (List Byte)} {buf : Addr}
    {init argStack : Bytes} {len : ℕ} (hf : Forked k src)
    (hexecv : execv argv buf init = .ok (len, argStack))
    (hbuf : buf.toNat + procOriginStack ≤ procImageSizeDefault.toNat)
    (hmsg : (Message.load k.mem mm.mmMsg).bufLen = BitVec.ofNat 32 len ∧
      (Message.load k.mem mm.mmMsg).buf = buf)
    (hargs : ∀ i < len, userMem k src (buf + BitVec.ofNat 32 i) = argStack i)
    (hread : ExecReads mm.toMmEnv fs k src size mem) (helf : IsElf (bytesAt mem mmbuf) size)
    (hload : loadSegments k src procImageSizeDefault (2 ^ 16) 0 mem = .ok mem') :
    (ArgsApart mm.toMmEnv ((k.procTable src).ldts 1).linear buf len (bytesAt mem mmbuf) →
      ArgsSurvive mm.toMmEnv ((k.procTable src).ldts 1).linear buf len argStack
        (bytesAt mem mmbuf) mem') ∧
    ((∀ h ∈ segments (bytesAt mem mmbuf), h.Contained size) →
      (ArgsSurvive mm.toMmEnv ((k.procTable src).ldts 1).linear buf len argStack
          (bytesAt mem mmbuf) mem' ↔
        (∀ h ∈ segments (bytesAt mem mmbuf),
          Apart h.pVaddr h.extent (origStack procImageSizeDefault) len) ∧
        ∀ i < len, ∀ p, lastOver (((k.procTable src).ldts 1).linear + buf + BitVec.ofNat 32 i)
            (filePatches k src (bytesAt mem mmbuf)) = some p →
          p.byteAt (((k.procTable src).ldts 1).linear + buf + BitVec.ofNat 32 i) =
            argStack i)) := by
  have hlen := execv_len hexecv
  have hstack : procOriginStack = 0x400 := rfl
  have hkeep : ∀ x, ArgByte mm.toMmEnv ((k.procTable src).ldts 1).linear buf len x →
      mem x = k.mem x := fun x hx => hread.argByte hf (by omega) hx
  have hargs' : ∀ i < len, bytesAt k.mem (((k.procTable src).ldts 1).linear + buf) i =
      argStack i := by
    intro i hi
    rw [← hargs i hi, userMem, bytesAt, BitVec.add_assoc]
  have hsize : size.toInt < mmbufSize := by
    obtain ⟨path, fs', -, hread⟩ := hread
    exact execRead_size hread
  constructor
  · intro h
    refine (argsSurvive_iff hlen hmsg hargs').2 ⟨h.target, fun x hx => ?_⟩
    rw [← hkeep x hx, loadSegments_ok hf hload]
    refine patched_of_not_covers fun p hp hcov => ?_
    obtain ⟨g, hg, hstart, hplen⟩ := loads_covers helf hsize h.file (fun _ _ => rfl) hp
    refine h.not_within hx hg ?_
    rwa [← hstart, ← hplen]
  · intro hc
    rw [argsSurvive_iff hlen hmsg hargs', loadSegments_contained hf hread helf hc hload]
    refine and_congr_right fun _ => ?_
    have hblock : ∀ i < len, (patched mem (filePatches k src (bytesAt mem mmbuf))
        (((k.procTable src).ldts 1).linear + buf + BitVec.ofNat 32 i) =
          k.mem (((k.procTable src).ldts 1).linear + buf + BitVec.ofNat 32 i) ↔
        ∀ p, lastOver (((k.procTable src).ldts 1).linear + buf + BitVec.ofNat 32 i)
            (filePatches k src (bytesAt mem mmbuf)) = some p →
          p.byteAt (((k.procTable src).ldts 1).linear + buf + BitVec.ofNat 32 i) =
            argStack i) := by
      intro i hi
      rw [← hkeep _ (.inl (within_add_ofNat _ hi (by omega))), patched_eq_self_iff,
        hkeep _ (.inl (within_add_ofNat _ hi (by omega)))]
      exact forall₂_congr fun p _ => by rw [← hargs' i hi, bytesAt]
    constructor
    · exact fun h i hi => (hblock i hi).1 (h _ (.inl (within_add_ofNat _ hi (by omega))))
    · rintro h x (hx | hx)
      · obtain ⟨i, hi, rfl⟩ := exists_of_within hx
        exact (hblock i hi).2 (h i hi)
      · rw [← hkeep x (.inr hx)]
        refine patched_of_not_covers fun p hp hcov => ?_
        have hhigh := filePatches_high hf hc hp hcov
        have hlow : x.toNat < 0x600000 := by
          rcases hx with hx | hx
          · exact mm.low (within_word (by decide) hx)
          · exact mm.low (within_word (by decide) hx)
        omega

/-! ## A file with one segment -/

/-- An ELF file with one program header, to load from its beginning. -/
def elf (vaddr filesz memsz : BitVec 32) : List Byte :=
  (List.range 84).map fun i =>
    if i < 4 then [0x7F, 0x45, 0x4C, 0x46].getD i 0
    else if i = 28 then 52
    else if i = 42 then 32
    else if i = 44 ∨ i = 52 then 1
    else if 60 ≤ i ∧ i < 64 then byteOf vaddr (i - 60)
    else if 68 ≤ i ∧ i < 72 then byteOf filesz (i - 68)
    else if 72 ≤ i ∧ i < 76 then byteOf memsz (i - 72)
    else 0

/-- `INIT` creates "a" on a new file system and writes the file to it. -/
def withFile (file : List Byte) : Except Fault Fs := do
  let fs ← initFs (fun _ => 0) 40000
  let (_, fs) ← fsCall fs (.open init (textAt [0x61]) (nameMsg [0x61] (oCreat ||| oRdwr)))
  let (_, fs) ← fsCall fs (.rdwt init (textAt file) false
    { nameMsg [] 0 with m3i2 := BitVec.ofNat 32 file.length })
  .ok fs

/-- The child of a fork waits for the reply to its request. -/
def asksExec (k : Kernel) (mem : Mem) : Kernel :=
  { k with mem }.set 9 fun p =>
    { p with pFlags := receiving, pMsg := 0x8000, pRecvfrom := proc2pid taskMm }

def execEnv64 : ExecEnv := { mmEnv64 with mmMsg_low := by decide }

/-- What the memory manager has got: the name "a", at 0x3000 of the child, and no arguments, in the
four bytes of `arg_stack` at 0x2000. -/
def execMem : Mem :=
  Message.store (fun x => if x = 0xA03000 then 0x61 else 0) execEnv64.mmMsg
    ⟨9, MsgType.exec.code, 0, 1, 4, 0, 0, 0, 0x3000, 0x2000⟩

theorem forked_asksExec {k : Kernel} (h : forkProc mmEnv64 (kernelMain (fun _ => 0) 0) init =
    .ok (some 9, k)) (mem : Mem) : Forked (asksExec k mem) 9 :=
  ⟨mmEnv64, _, init, k, h, by simp [asksExec]⟩

theorem isElf_84 {f : Bytes} (hoff : ePhoff f = 52) (hent : ePhentsize f = 32)
    (hnum : ePhnum f = 1) : IsElf f 84 := by
  refine ⟨by decide, fun i hi => ?_⟩
  rw [hnum] at hi
  obtain rfl : i = 0 := Nat.lt_one_iff.1 hi
  rw [hoff, hent]
  decide

/-- A block that ends before another begins. -/
theorem apart_of_le {a b : Addr} {n m : ℕ} (hab : a.toNat + n ≤ b.toNat)
    (hb : b.toNat + m ≤ 2 ^ 32) : Apart a n b m := by
  intro x hx hx'
  unfold Within at hx hx'
  bv_omega

/-- Whether the child of a fork executes the file, and comes to `P` with what it has read. -/
def execsFile (file : List Byte) (P : Fs → Kernel → Mem → Bool) : Bool :=
  (forkProc mmEnv64 (kernelMain (fun _ => 0) 0) init).toOption.any fun r =>
    r.1 = some 9 ∧ (withFile file).toOption.any fun fs =>
      (getPath (userMem (asksExec r.2 execMem) 9)
        (Message.load (asksExec r.2 execMem).mem execEnv64.mmMsg)).toOption.any fun path =>
      (execRead fs (asksExec r.2 execMem).mem path).toOption.any fun q =>
        q.1 = some 84 ∧ P fs (asksExec r.2 execMem) q.2.2

theorem execsFile_ok {file : List Byte} {P : Fs → Kernel → Mem → Bool}
    (h : execsFile file P = true) : ∃ fs k mem, Forked k 9 ∧ Awaits k 9 taskMm ∧ k.mem = execMem ∧
      ExecReads execEnv64.toMmEnv fs k 9 84 mem ∧ P fs k mem = true := by
  unfold execsFile at h
  obtain ⟨⟨c, k⟩, hk, h⟩ := exists_ok_of_any h
  obtain ⟨rfl, h⟩ : c = some 9 ∧ _ := of_decide_eq_true h
  obtain ⟨fs, -, h⟩ := exists_ok_of_any h
  obtain ⟨path, hpath, h⟩ := exists_ok_of_any h
  obtain ⟨⟨size, fs', mem⟩, hread, h⟩ := exists_ok_of_any h
  obtain ⟨rfl, h⟩ : size = some 84 ∧ _ := of_decide_eq_true h
  have hw : Awaits (asksExec k execMem) 9 taskMm := by
    refine ⟨?_, .inl ?_⟩ <;> simp [asksExec, receiving]
  exact ⟨fs, asksExec k execMem, mem, forked_asksExec hk execMem, hw, rfl,
    ⟨path, fs', hpath, hread⟩, h⟩

/-- The segment of the file, away from `arg_stack`. -/
theorem exec_args_iff_apart : ∃ fs k mem mem', Forked k 9 ∧
    ExecReads execEnv64.toMmEnv fs k 9 84 mem ∧
    loadSegments k 9 procImageSizeDefault (2 ^ 16) 0 mem = .ok mem' ∧
    segments (bytesAt mem mmbuf) = [⟨ptLoad, 0, 0x1000, 4, 4⟩] ∧
    ArgsSurvive execEnv64.toMmEnv ((k.procTable 9).ldts 1).linear 0x2000 4
      (putWord (fun _ => 0) 0 0) (bytesAt mem mmbuf) mem' := by
  have hany : execsFile (elf 0x1000 4 4) (fun _ k mem =>
      (segments (bytesAt mem mmbuf) = [⟨ptLoad, 0, 0x1000, 4, 4⟩] ∧
        ePhoff (bytesAt mem mmbuf) = 52 ∧ ePhentsize (bytesAt mem mmbuf) = 32 ∧
        ePhnum (bytesAt mem mmbuf) = 1) ∧
      (loadSegments k 9 procImageSizeDefault (2 ^ 16) 0 mem).toOption.isSome) = true := by
    simp only [execsFile, withFile, fsCall, doOpen, openInode, createFile, allocAtOnce_eq]
    decide +kernel
  obtain ⟨fs, k, mem, hf, -, hmem, hreads, hany⟩ := execsFile_ok hany
  obtain ⟨⟨hseg, hoff, hent, hnum⟩, hany⟩ := of_decide_eq_true hany
  obtain ⟨mem', hload⟩ := Option.isSome_iff_exists.1 hany
  rw [toOption_eq_some] at hload
  refine ⟨fs, k, mem, mem', hf, hreads, hload, hseg, ?_⟩
  have hexecv : execv [] 0x2000 (fun _ => 0) = .ok (4, putWord (fun _ => 0) 0 0) := rfl
  have hbuf : (0x2000 : Addr).toNat + procOriginStack ≤ procImageSizeDefault.toNat := by decide
  have hbase : ((k.procTable 9).ldts 1).linear = 0xA00000 := BitVec.eq_of_toNat_eq hf.image.2
  refine (exec_args_iff hf hexecv hbuf ?_ (fun i hi => ?_) hreads
    (isElf_84 hoff hent hnum) hload).1 ?_
  · rw [hmem, execMem, Message.load_store]
    exact ⟨rfl, rfl⟩
  · have hzero : ∀ i < 4, execMem (0xA00000 + (0x2000 + BitVec.ofNat 32 i)) =
        putWord (fun _ => 0) 0 0 i := by decide
    rw [userMem, hbase, hmem]
    exact hzero i hi
  · rw [hbase]
    refine ⟨?_, ?_, ?_, ?_⟩ <;> rw [hseg] <;> rintro h hh <;>
      obtain rfl := List.mem_singleton.1 hh
    · exact apart_of_le (by decide) (by decide)
    · exact (apart_of_le (by decide) (by decide)).symm
    · exact (apart_of_le (by decide) (by decide)).symm
    · exact apart_of_le (by decide) (by decide)

/-- A segment loaded over `arg_stack`: the pointer that ends the arguments is no longer null. -/
theorem exec_loads_over_args : ∃ fs k mem mem', Forked k 9 ∧
    ExecReads execEnv64.toMmEnv fs k 9 84 mem ∧
    loadSegments k 9 procImageSizeDefault (2 ^ 16) 0 mem = .ok mem' ∧
    execv [] 0x2000 (fun _ => 0) = .ok (4, putWord (fun _ => 0) 0 0) ∧
    ¬ ArgsSurvive execEnv64.toMmEnv ((k.procTable 9).ldts 1).linear 0x2000 4
      (putWord (fun _ => 0) 0 0) (bytesAt mem mmbuf) mem' := by
  have hany : execsFile (elf 0x2000 4 4) (fun _ k mem =>
      (loadSegments k 9 procImageSizeDefault (2 ^ 16) 0 mem).toOption.any fun mem' =>
        bytesAt mem' (((k.procTable 9).ldts 1).linear + 0x2000) 0 = 0x7F) = true := by
    simp only [execsFile, withFile, fsCall, doOpen, openInode, createFile, allocAtOnce_eq]
    decide +kernel
  obtain ⟨fs, k, mem, hf, -, -, hreads, hany⟩ := execsFile_ok hany
  obtain ⟨mem', hload, hany⟩ := exists_ok_of_any hany
  refine ⟨fs, k, mem, mem', hf, hreads, hload, rfl, fun hs => ?_⟩
  have h0 := hs.copied 0 (by decide)
  rw [of_decide_eq_true hany] at h0
  exact absurd h0 (by decide)

end MyOS
