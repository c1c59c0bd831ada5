import MyOS.Untar
import MyOS.Proofs.Vsprintf

/-!
# What untar makes of an archive

An archive is a sequence of members, each a header block and its data up to a block's end, and a
block that starts with a null. A turn of the loop starts at a header, copies the data in pieces, and
leaves the archive at the next header: the pieces are whole blocks but for the last, and what is
read of that ends with the padding.
-/

namespace MyOS

open Memory

/-- The number some octal digits stand for. -/
def octalValue (digits : List Byte) (n : ℕ) : ℕ :=
  digits.foldl (fun n c => n * 8 + (c.toNat - 48)) n

/-- A member of a well-formed archive. -/
structure Member where
  name : List Byte
  size : List Byte
  header : List Byte
  data : List Byte
  padding : List Byte
  header_length : header.length = sectorSize
  name_ne_nil : name ≠ []
  name_noNull : 0 ∉ name
  name_fits : name.length < 100
  header_name : name ++ [0] <+: header
  size_octal : ∀ c ∈ size, ascii '0' ≤ c ∧ c ≤ ascii '7'
  size_fits : size.length < 12
  header_size : size ++ [0] <+: header.drop posixTarHeaderSize
  size_value : octalValue size 0 = data.length
  data_small : data.length < 2 ^ 31
  padded : sectorSize ∣ data.length + padding.length
  padding_lt : padding.length < sectorSize

namespace Member

def bytes (m : Member) : List Byte := m.header ++ (m.data ++ m.padding)

/-- The file that is made of a member. -/
def file (m : Member) : List Byte × List Byte := (m.name, m.data)

end Member

variable {opens : List Byte → Bool} {t : Tar} {l rest data padding : List Byte} {n : ℕ}

/-! ## The size of a member -/

theorem octalDigit : ∀ c : Byte, ascii '0' ≤ c ∧ c ≤ ascii '7' →
    c ≠ 0 ∧ c.signExtend 32 - 0x30 = BitVec.ofNat 32 (c.toNat - 48) := by
  decide +kernel

theorem octalLoop_eq : ∀ {size : List Byte} {k : ℕ},
    (∀ c ∈ size, ascii '0' ≤ c ∧ c ≤ ascii '7') →
      octalLoop (BitVec.ofNat 32 k) (size ++ 0 :: rest) = .ok (BitVec.ofNat 32 (octalValue size k))
  | [], k, _ => by
    rw [List.nil_append, octalLoop, if_neg (not_not.2 rfl)]
    rfl
  | c :: size, k, h => by
    obtain ⟨hc, h⟩ := List.forall_mem_cons.1 h
    obtain ⟨hne, hdigit⟩ := octalDigit c hc
    have hnext : BitVec.ofNat 32 k * 8 + BitVec.ofNat 32 (c.toNat - 48) =
        BitVec.ofNat 32 (k * 8 + (c.toNat - 48)) := by
      rw [BitVec.ofNat_add, BitVec.ofNat_mul]
      rfl
    rw [List.cons_append, octalLoop, if_pos hne, hdigit, hnext, octalLoop_eq h]
    rfl

/-! ## A read and a write -/

namespace Tar

theorem read_eq (h : t.archive.drop t.pos = l ++ rest) {c : ℕ} (hl : l.length = c)
    (hc : c < 2 ^ 31) : t.read (BitVec.ofNat 32 c) =
      { t with pos := t.pos + l.length, buf := l ++ t.buf.drop l.length } := by
  have htake : (t.archive.drop t.pos).take (BitVec.ofNat 32 c).toInt.toNat = l := by
    rw [toInt_ofNat_small hc, Int.toNat_natCast, h, ← hl, List.take_left]
  rw [read, htake]

theorem drop_after (h : t.archive.drop t.pos = l ++ rest) :
    t.archive.drop (t.pos + l.length) = rest := by
  rw [← List.drop_drop, h, List.drop_left]

end Tar

/-! ## The pieces of the data -/

/-- What `copyLoop` reads for `k` bytes: whole blocks. -/
def blocksFor (k : ℕ) : ℕ := ((k - 1) / 512 + 1) * 512

theorem blocksFor_eq {k : ℕ} (hpos : 0 < k) (hk : k ≤ 8192) :
    ((BitVec.ofNat 32 k - 1).sdiv 512 + 1) * 512 = BitVec.ofNat 32 (blocksFor k) := by
  have hpred : BitVec.ofNat 32 k - 1 = BitVec.ofNat 32 (k - 1) :=
    BitVec.ofNat_sub_ofNat_of_le k 1 (by decide) hpos
  obtain ⟨hdiv, -⟩ := ofNat_divMod (k := k - 1) (b := 512) (by omega) (by decide)
  rw [hpred, show (512 : BitVec 32) = BitVec.ofNat 32 512 from rfl, hdiv, blocksFor,
    BitVec.ofNat_mul, BitVec.ofNat_add]
  rfl

/-- The last piece ends with the padding. -/
theorem blocksFor_last {k pad : ℕ} (hpos : 0 < k) (hdvd : sectorSize ∣ k + pad)
    (hpad : pad < sectorSize) : blocksFor k = k + pad := by
  have hsec : sectorSize = 512 := rfl
  rw [hsec] at hdvd hpad
  rw [blocksFor]
  omega

theorem blocksFor_le {k : ℕ} (hk : k ≤ 8192) : blocksFor k ≤ 8192 := by
  rw [blocksFor]
  omega

/-- A turn of the loop copies a piece. -/
theorem copyLoop_turn {left k : ℕ} (hleft : left < 2 ^ 31) (hk : k = min 8192 left)
    (hpos : 0 < left) : copyLoop (n + 1) (BitVec.ofNat 32 left) t =
      copyLoop n (BitVec.ofNat 32 (left - k))
        ((t.read (BitVec.ofNat 32 (blocksFor k))).write (BitVec.ofNat 32 k)) := by
  have hne : BitVec.ofNat 32 left ≠ 0 := fun h => by
    have := congrArg BitVec.toInt h
    rw [toInt_ofNat_small hleft] at this
    exact absurd this (by simp; omega)
  have hio : (if chunk.toInt < (BitVec.ofNat 32 left).toInt then chunk else BitVec.ofNat 32 left) =
      BitVec.ofNat 32 k := by
    have hchunk : chunk.toInt = 8192 := rfl
    rw [toInt_ofNat_small hleft, hchunk]
    split_ifs with h
    · rw [hk, min_eq_left (by omega)]
      rfl
    · rw [hk, min_eq_right (by omega)]
  rw [copyLoop, if_pos hne]
  dsimp only
  rw [hio, blocksFor_eq (by omega) (by omega), BitVec.ofNat_sub_ofNat_of_le left k (by omega)
    (by omega)]

/-- What a turn reads and writes. -/
theorem read_write {k : ℕ} (h : t.archive.drop t.pos = l ++ rest) (hl : l.length = blocksFor k)
    (hk : k ≤ blocksFor k) (hle : k ≤ 8192) (hbuf : t.buf.length = 8192) :
    ∃ buf, buf.length = 8192 ∧
      (t.read (BitVec.ofNat 32 (blocksFor k))).write (BitVec.ofNat 32 k) =
        { t with pos := t.pos + l.length, buf,
                 files := t.files.modifyHead fun f => (f.1, f.2 ++ l.take k) } := by
  have hblocks := blocksFor_le hle
  refine ⟨l ++ t.buf.drop l.length, ?_, ?_⟩
  · rw [List.length_append, List.length_drop]
    omega
  · have htake : (l ++ t.buf.drop l.length).take k = l.take k :=
      List.take_append_of_le_length (by omega)
    rw [Tar.read_eq h hl (by omega), Tar.write, toInt_ofNat_small (by omega), Int.toNat_natCast]
    dsimp only
    rw [htake]

/-- The data of a member are copied into the file, and the archive is behind their padding. -/
theorem copyLoop_eq {name : List Byte} {files : List (List Byte × List Byte)} :
    ∀ {n : ℕ} (data old : List Byte) {t : Tar}, data.length < n →
      data.length < 2 ^ 31 → t.archive.drop t.pos = (data ++ padding) ++ rest →
      sectorSize ∣ data.length + padding.length → padding.length < sectorSize →
      t.buf.length = 8192 → t.files = (name, old) :: files → ∃ buf, buf.length = 8192 ∧
        copyLoop n (BitVec.ofNat 32 data.length) t =
          .ok { t with pos := t.pos + (data ++ padding).length, buf,
                       files := (name, old ++ data) :: files }
  | n + 1, data, old, t, hn, hsmall, h, hdvd, hpad, hbuf, hfiles => by
    have hsec : sectorSize = 512 := rfl
    rcases Nat.eq_zero_or_pos data.length with h0 | hpos
    · obtain rfl := List.length_eq_zero_iff.1 h0
      obtain rfl : padding = [] := by
        rw [List.length_nil, zero_add] at hdvd
        exact List.length_eq_zero_iff.1 (Nat.eq_zero_of_dvd_of_lt hdvd hpad)
      refine ⟨t.buf, hbuf, ?_⟩
      rw [List.append_nil old, ← hfiles]
      rfl
    · rw [copyLoop_turn hsmall rfl hpos]
      rcases le_or_gt data.length 8192 with hle | hgt
      · -- the last piece, which ends with the padding
        have hblocks := blocksFor_last hpos hdvd hpad
        obtain ⟨buf, hbuf', hrw⟩ := read_write (k := data.length) h
          (by rw [List.length_append, hblocks]) (by omega) hle hbuf
        refine ⟨buf, hbuf', ?_⟩
        rw [min_eq_right hle, Nat.sub_self, hrw, hfiles, List.take_left]
        cases n with
        | zero => omega
        | succ n => rfl
      · -- a piece that fills the buffer
        have hsplit : t.archive.drop t.pos =
            data.take 8192 ++ (data.drop 8192 ++ padding ++ rest) := by
          rw [h, ← List.append_assoc, ← List.append_assoc, List.take_append_drop]
        have htake : (data.take 8192).length = 8192 := by
          rw [List.length_take]
          omega
        have hdrop : (data.drop 8192).length = data.length - 8192 := List.length_drop
        have hdvd' : sectorSize ∣ (data.drop 8192).length + padding.length := by
          rw [hsec] at hdvd ⊢
          omega
        obtain ⟨buf, hbuf', hrw⟩ := read_write (k := 8192) hsplit htake le_rfl le_rfl hbuf
        rw [min_eq_left (by omega), hrw, hfiles, ← hdrop]
        obtain ⟨buf', hbuf'', hih⟩ := copyLoop_eq (data.drop 8192) (old ++ data.take 8192) (n := n)
          (t := { t with pos := t.pos + (data.take 8192).length, buf,
                         files := (name, old ++ data.take 8192) :: files })
          (by omega) (by omega) (Tar.drop_after hsplit) hdvd' hpad hbuf' rfl
        have hpos' : t.pos + (data.take 8192).length + (data.drop 8192 ++ padding).length =
            t.pos + (data ++ padding).length := by
          simp only [List.length_append]
          omega
        have hold : old ++ data.take 8192 ++ data.drop 8192 = old ++ data := by
          rw [List.append_assoc, List.take_append_drop]
        refine ⟨buf', hbuf'', ?_⟩
        rw [List.modifyHead_cons, List.take_of_length_le htake.le, hih]
        dsimp only
        rw [hpos', hold]

/-! ## A member -/

/-- A turn of the loop makes a file of a member, and ends at the next header. -/
theorem untarLoop_member {m : Member} (h : t.archive.drop t.pos = m.bytes ++ rest)
    (hopen : opens m.name = true) (hbuf : t.buf.length = 8192) : ∃ buf, buf.length = 8192 ∧
      ∀ n, untarLoop opens (n + 1) t = untarLoop opens n
        { t with pos := t.pos + m.bytes.length, buf, files := m.file :: t.files } := by
  have hsec : sectorSize = 512 := rfl
  have hlen := m.header_length
  rw [Member.bytes, List.append_assoc] at h
  obtain ⟨after, hname⟩ := m.header_name
  obtain ⟨behind, hsize⟩ := m.header_size
  have hread := Tar.read_eq h hlen (by decide)
  have hhead : (m.header ++ t.buf.drop m.header.length).headD 0 ≠ 0 := by
    obtain ⟨c, cs, hcs⟩ := List.exists_cons_of_ne_nil m.name_ne_nil
    rw [← hname, hcs]
    exact fun h0 => m.name_noNull (hcs ▸ h0 ▸ List.mem_cons_self)
  have hoctal : octalLoop 0 ((m.header ++ t.buf.drop m.header.length).drop posixTarHeaderSize) =
      .ok (BitVec.ofNat 32 m.data.length) := by
    rw [List.drop_append_of_le_length (hlen ▸ by decide), ← hsize, List.append_assoc,
      List.append_assoc, ← m.size_value]
    exact octalLoop_eq (k := 0) m.size_octal
  have hstring : cString (m.header ++ t.buf.drop m.header.length) = .ok m.name := by
    rw [cString, if_pos (by rw [← hname]; simp), ← hname, List.append_assoc, List.append_assoc,
      untilNull_append m.name_noNull, List.singleton_append, untilNull,
      List.takeWhile_cons_of_neg (by decide), List.append_nil]
  have hdata := Tar.drop_after h
  obtain ⟨buf, hbuf', hcopy⟩ := copyLoop_eq m.data []
    (n := (BitVec.ofNat 32 m.data.length).toNat + 1)
    (t := { t with pos := t.pos + m.header.length, buf := m.header ++ t.buf.drop m.header.length,
                   files := (m.name, []) :: t.files })
    (by
      rw [BitVec.toNat_ofNat, Nat.mod_eq_of_lt (m.data_small.trans (by decide))]
      exact Nat.lt_succ_self _)
    m.data_small hdata m.padded m.padding_lt
    (by
      simp only [List.length_append, List.length_drop]
      omega) rfl
  refine ⟨buf, hbuf', fun n => ?_⟩
  rw [untarLoop, hread]
  dsimp only
  rw [if_neg hhead, hoctal, ok_bind, hstring, ok_bind, if_neg (by rw [hopen]; decide), Tar.create]
  dsimp only
  rw [hcopy, ok_bind]
  simp only [Member.bytes, Member.file, List.length_append, List.nil_append, Nat.add_assoc]

/-! ## The archive -/

/-- The loop takes the members one by one. -/
theorem untarLoop_members : ∀ {ms : List Member} {t : Tar},
    t.archive.drop t.pos = ms.flatMap Member.bytes ++ rest → (∀ m ∈ ms, opens m.name = true) →
      t.buf.length = 8192 → ∃ buf, buf.length = 8192 ∧ ∀ n,
        untarLoop opens (n + ms.length) t = untarLoop opens n
          { t with pos := t.pos + (ms.flatMap Member.bytes).length, buf,
                   files := (ms.map Member.file).reverse ++ t.files }
  | [], t, _, _, hbuf => ⟨t.buf, hbuf, fun n => rfl⟩
  | m :: ms, t, h, hopen, hbuf => by
    obtain ⟨hm, hopen⟩ := List.forall_mem_cons.1 hopen
    rw [List.flatMap_cons, List.append_assoc] at h
    obtain ⟨buf, hbuf', hturn⟩ := untarLoop_member h hm hbuf
    obtain ⟨buf', hbuf'', hrun⟩ := untarLoop_members
      (t := { t with pos := t.pos + m.bytes.length, buf, files := m.file :: t.files })
      (Tar.drop_after h) hopen hbuf'
    refine ⟨buf', hbuf'', fun n => ?_⟩
    rw [List.length_cons, ← Nat.add_assoc, hturn, hrun]
    simp only [List.flatMap_cons, List.length_append, List.map_cons, List.reverse_cons,
      List.append_assoc, List.singleton_append, Nat.add_assoc]

/-- The header that starts with a null ends the loop. -/
theorem untarLoop_last {last : List Byte} (h : t.archive.drop t.pos = 0 :: last)
    (hlast : sectorSize ≤ (0 :: last).length) (n : ℕ) :
    untarLoop opens (n + 1) t = .ok (true, t.read (BitVec.ofNat 32 sectorSize)) := by
  have hlen : ((0 :: last).take sectorSize).length = sectorSize := by
    rw [List.length_take, min_eq_left hlast]
  have hsplit : t.archive.drop t.pos =
      (0 :: last).take sectorSize ++ (0 :: last).drop sectorSize := by
    rw [h, List.take_append_drop]
  have hread := Tar.read_eq hsplit hlen (by decide)
  rw [untarLoop, if_pos]
  rw [hread]
  rfl

theorem filter_name : ∀ {ms : List Member}, (ms.map Member.name).Nodup → ∀ m ∈ ms,
    (ms.map Member.file).filter (·.1 = m.name) = [m.file]
  | m' :: ms, hnames, m, hm => by
    obtain ⟨hnew, hnames⟩ := List.nodup_cons.1 hnames
    rcases List.mem_cons.1 hm with rfl | hm
    · rw [List.map_cons, List.filter_cons_of_pos (by simp [Member.file]), List.filter_eq_nil_iff.2]
      intro f hf hname
      obtain ⟨m', hm', rfl⟩ := List.mem_map.1 hf
      exact hnew (List.mem_map.2 ⟨m', hm', of_decide_eq_true hname⟩)
    · rw [List.map_cons, List.filter_cons_of_neg, filter_name hnames m hm]
      intro hname
      have hname : m'.name = m.name := of_decide_eq_true hname
      exact hnew (hname ▸ List.mem_map_of_mem hm)

/-- An archive is taken apart into its members' files, and the loop is at a header after each. -/
theorem untar_reproduces (opens : List Byte → Bool) (ms : List Member) (last buf : List Byte)
    (hlast : sectorSize ≤ (0 :: last).length) (hbuf : buf.length = 8192)
    (hnames : (ms.map Member.name).Nodup) (hopen : ∀ m ∈ ms, opens m.name = true) :
    (∃ t, (∀ n > ms.length, untar opens (some (ms.flatMap Member.bytes ++ 0 :: last)) buf n =
        .ok (true, t)) ∧ t.files.reverse = ms.map Member.file ∧
          ∀ m ∈ ms, t.files.filter (·.1 = m.name) = [m.file]) ∧
      ∀ ms₁ ms₂, ms = ms₁ ++ ms₂ → ∃ buf', ∀ n,
        untar opens (some (ms.flatMap Member.bytes ++ 0 :: last)) buf (n + ms₁.length) =
          untarLoop opens n
            { archive := ms.flatMap Member.bytes ++ 0 :: last,
              pos := (ms₁.flatMap Member.bytes).length, buf := buf',
              files := (ms₁.map Member.file).reverse } := by
  have hrun (ms₁ ms₂ : List Member) (h : ms = ms₁ ++ ms₂) : ∃ buf', buf'.length = 8192 ∧ ∀ n,
      untar opens (some (ms.flatMap Member.bytes ++ 0 :: last)) buf (n + ms₁.length) =
        untarLoop opens n
          { archive := ms.flatMap Member.bytes ++ 0 :: last,
            pos := (ms₁.flatMap Member.bytes).length, buf := buf',
            files := (ms₁.map Member.file).reverse } := by
    have hopen₁ : ∀ m ∈ ms₁, opens m.name = true :=
      fun m hm => hopen m (h ▸ List.mem_append_left _ hm)
    have hsplit : (ms.flatMap Member.bytes ++ 0 :: last).drop 0 =
        ms₁.flatMap Member.bytes ++ (ms₂.flatMap Member.bytes ++ 0 :: last) := by
      rw [List.drop_zero, h, List.flatMap_append, List.append_assoc]
    obtain ⟨buf', hbuf', hrun⟩ := untarLoop_members
      (t := { archive := ms.flatMap Member.bytes ++ 0 :: last, pos := 0, buf, files := [] })
      hsplit hopen₁ hbuf
    refine ⟨buf', hbuf', fun n => ?_⟩
    rw [untar, hrun]
    simp only [Nat.zero_add, List.append_nil]
  constructor
  · obtain ⟨buf', hbuf', hall⟩ := hrun ms [] (List.append_nil _).symm
    refine ⟨Tar.read { archive := ms.flatMap Member.bytes ++ 0 :: last,
                       pos := (ms.flatMap Member.bytes).length, buf := buf',
                       files := (ms.map Member.file).reverse } (BitVec.ofNat 32 sectorSize),
      fun n hn => ?_, List.reverse_reverse _, fun m hm => ?_⟩
    · obtain ⟨k, rfl⟩ : ∃ k, n = k + 1 + ms.length := ⟨n - ms.length - 1, by omega⟩
      rw [hall]
      exact untarLoop_last List.drop_left hlast k
    · exact List.filter_reverse.trans (by rw [filter_name hnames m hm]; rfl)
  · intro ms₁ ms₂ h
    obtain ⟨buf', -, hall⟩ := hrun ms₁ ms₂ h
    exact ⟨buf', hall⟩

/-- A member with a name of one letter and three bytes. -/
def smallMember : Member where
  name := [ascii 'a']
  size := [ascii '3']
  header := ascii 'a' :: List.replicate 123 0 ++ ascii '3' :: List.replicate 387 0
  data := [1, 0, 2]
  padding := List.replicate 509 0
  header_length := by decide +kernel
  name_ne_nil := by decide
  name_noNull := by decide
  name_fits := by decide
  header_name := ⟨List.replicate 122 0 ++ ascii '3' :: List.replicate 387 0, by decide +kernel⟩
  size_octal := by decide
  size_fits := by decide
  header_size := ⟨List.replicate 386 0, by decide +kernel⟩
  size_value := by decide
  data_small := by decide
  padded := by decide +kernel
  padding_lt := by decide +kernel

/-- A member of two sectors, the second one with a single byte. -/
def largerMember : Member where
  name := [ascii 'b']
  size := [ascii '1', ascii '0', ascii '0', ascii '1']
  header := ascii 'b' :: List.replicate 123 0 ++ [ascii '1', ascii '0', ascii '0', ascii '1'] ++
    List.replicate 384 0
  data := List.replicate 513 7
  padding := List.replicate 511 0
  header_length := by decide +kernel
  name_ne_nil := by decide
  name_noNull := by decide
  name_fits := by decide
  header_name := ⟨List.replicate 122 0 ++ [ascii '1', ascii '0', ascii '0', ascii '1'] ++
    List.replicate 384 0, by decide +kernel⟩
  size_octal := by decide
  size_fits := by decide
  header_size := ⟨List.replicate 383 0, by decide +kernel⟩
  size_value := by decide +kernel
  data_small := by decide +kernel
  padded := by decide +kernel
  padding_lt := by decide +kernel

/-- An archive with these two members. -/
theorem untar_two :
    ∃ t, (∀ n > 2, untar (fun _ => true) (some (smallMember.bytes ++ (largerMember.bytes ++
        List.replicate 1024 0))) (List.replicate 8192 0) n = .ok (true, t)) ∧
      t.files.reverse = [([ascii 'a'], [1, 0, 2]), ([ascii 'b'], List.replicate 513 7)] := by
  obtain ⟨⟨t, hrun, hfiles, -⟩, -⟩ := untar_reproduces (fun _ => true) [smallMember, largerMember]
    (List.replicate 1023 0) (List.replicate 8192 0) (by decide +kernel) List.length_replicate
    (by decide) (fun _ _ => rfl)
  refine ⟨t, fun n hn => ?_, hfiles⟩
  rw [← hrun n hn, List.flatMap_cons, List.flatMap_singleton, List.append_assoc]
  rfl

end MyOS
