import WamrTest.Framework.Circular
import WamrTest.Framework.MachineInt

/-!
# The host's ring buffer

`InitRingBuff`, `FreeRingBuff`, `WriteRingBuff` and `ReadRingBuff` of `src/src/main.c`. Host
pointers are integers with 0 for `NULL`, `int` values are `Int32`, and the bytes the pointers
range over are one memory. Every call also reports the copies it made between the ring and the
caller's buffer.
-/

namespace WamrTest

open ByteMemory Circular MachineInt

def buffMaxLen : ℕ := 8192

def vosOk : Int32 := 0

def vosErr : Int32 := -1

theorem vosOk_ne_vosErr : vosOk ≠ vosErr := by decide

/-- `sizeof(int)`, which is what `sizeof(BUFF_MAX_LEN)` is. -/
def sizeofInt : ℕ := 4

/-- What a successful `wasm_runtime_module_malloc` hands out. -/
structure Block where
  offset : UInt32
  base : ℤ
  offset_ne : offset ≠ 0
  base_pos : 0 < base

/-- The globals of the ring and the memory they point into. -/
structure RingBuff where
  pHead : ℤ
  pValidRead : ℤ
  pValidWrite : ℤ
  pTail : ℤ
  mem : Mem UInt8

/-- One `memcpy` between ring address `ring` and offset `buff` of the caller's buffer. -/
structure Copy where
  ring : ℤ
  buff : ℤ
  size : ℕ
deriving DecidableEq

structure CallResult where
  ret : Int32
  ring : RingBuff
  pBuff : Mem UInt8
  copies : List Copy

def copyIn (mem pBuff : Mem UInt8) (copies : List Copy) : Mem UInt8 :=
  copies.foldl (fun m c => memcpy m c.ring pBuff c.buff c.size) mem

def copyOut (pBuff mem : Mem UInt8) (copies : List Copy) : Mem UInt8 :=
  copies.foldl (fun b c => memcpy b c.buff mem c.ring c.size) pBuff

/-- `InitRingBuff`; `answer` is what the allocator replies if it is asked. The block's bytes
are whatever the memory holds there. -/
def initRingBuff (answer : Option Block) (s : RingBuff) : UInt32 × RingBuff :=
  let (wasmBufferBase, pHead) :=
    if s.pHead = 0 then
      match answer with
      | none => (0, s.pHead)
      | some block => (block.offset, block.base)
    else (0, s.pHead)
  (wasmBufferBase,
    { pHead, pValidRead := pHead, pValidWrite := pHead, pTail := pHead + buffMaxLen,
      mem := memset s.mem pHead 0 sizeofInt })

/-- `FreeRingBuff`: the offset handed to `wasm_runtime_module_free`, if it is called. None of
the ring's globals is assigned. -/
def freeRingBuff (s : RingBuff) (wasmPtr : UInt32) : Option UInt32 :=
  if s.pHead ≠ 0 then some wasmPtr else none

def writeRingBuff (s : RingBuff) (pBuff : Mem UInt8) (addLen : Int32) : CallResult :=
  if s.pHead = 0 then ⟨vosErr, s, pBuff, []⟩
  else if addLen.toInt > s.pTail - s.pHead then ⟨vosErr, s, pBuff, []⟩
  else if s.pValidWrite + addLen.toInt > s.pTail then
    let preLen := Int32.ofInt (s.pTail - s.pValidWrite)
    let lastLen := addLen - preLen
    let copies := [⟨s.pValidWrite, 0, sizeT 64 preLen⟩, ⟨s.pHead, preLen.toInt, sizeT 64 lastLen⟩]
    ⟨vosOk, { s with mem := copyIn s.mem pBuff copies, pValidWrite := s.pHead + lastLen.toInt },
      pBuff, copies⟩
  else
    let copies := [⟨s.pValidWrite, 0, sizeT 64 addLen⟩]
    ⟨vosOk, { s with mem := copyIn s.mem pBuff copies, pValidWrite := s.pValidWrite + addLen.toInt },
      pBuff, copies⟩

/-- A read of nothing returns `VOS_OK` before the cursor is looked at. -/
def readRingBuff (s : RingBuff) (pBuff : Mem UInt8) (len : Int32) : CallResult :=
  if s.pHead = 0 then ⟨vosErr, s, pBuff, []⟩
  else if len.toInt > s.pTail - s.pHead then ⟨vosErr, s, pBuff, []⟩
  else if 0 = len then ⟨vosOk, s, pBuff, []⟩
  else if s.pValidRead + len.toInt > s.pTail then
    let preLen := Int32.ofInt (s.pTail - s.pValidRead)
    let lastLen := len - preLen
    let copies := [⟨s.pValidRead, 0, sizeT 64 preLen⟩, ⟨s.pHead, preLen.toInt, sizeT 64 lastLen⟩]
    ⟨len, { s with pValidRead := s.pHead + lastLen.toInt }, copyOut pBuff s.mem copies, copies⟩
  else
    let copies := [⟨s.pValidRead, 0, sizeT 64 len⟩]
    ⟨len, { s with pValidRead := s.pValidRead + len.toInt }, copyOut pBuff s.mem copies, copies⟩

/-- The ring is allocated and both cursors are in it or at its end. -/
structure RingBuff.Valid (s : RingBuff) : Prop where
  head_ne : s.pHead ≠ 0
  tail : s.pTail = s.pHead + buffMaxLen
  read_low : s.pHead ≤ s.pValidRead
  read_high : s.pValidRead ≤ s.pHead + buffMaxLen
  write_low : s.pHead ≤ s.pValidWrite
  write_high : s.pValidWrite ≤ s.pHead + buffMaxLen

private theorem split_lengths {n : Int32} {d : ℤ} {k p : ℕ} (hd : d = p) (hk : n.toInt = k)
    (hp : p ≤ buffMaxLen) (hpk : p ≤ k) :
    (Int32.ofInt d).toInt = p ∧ sizeT 64 (Int32.ofInt d) = p ∧
      (n - Int32.ofInt d).toInt = (k : ℤ) - p ∧ sizeT 64 (n - Int32.ofInt d) = k - p := by
  unfold buffMaxLen at hp
  have hpre : (Int32.ofInt d).toInt = p := by
    rw [hd]
    exact Int32.toInt_ofInt_of_le (by omega) (by omega)
  have hlast := toInt_sub_of_le (n := n) (p := Int32.ofInt d) (by omega) (by omega)
  rw [hpre,hk] at hlast
  refine ⟨hpre,?_,hlast,?_⟩
  · rw [sizeT_of_nonneg (by decide) (by omega),hpre]
    omega
  · rw [sizeT_of_nonneg (by decide) (by omega),hlast]
    omega

/-- The copies of an accepted transfer: one up to the end, or two around it. -/
def transferCopies (head cursor : ℤ) (n : ℕ) : List Copy :=
  if head + buffMaxLen < cursor + n then
    let pre := (head + buffMaxLen - cursor).toNat
    [⟨cursor, 0, pre⟩, ⟨head, pre, n - pre⟩]
  else [⟨cursor, 0, n⟩]

def CallResult.Touches (r : CallResult) (a : ℤ) : Prop :=
  ∃ c ∈ r.copies, c.ring ≤ a ∧ a < c.ring + c.size

theorem transferCopies_touches {head cursor a : ℤ} {n : ℕ} (hl : head ≤ cursor)
    (hh : cursor ≤ head + buffMaxLen) (hn : n ≤ buffMaxLen) :
    (∃ c ∈ transferCopies head cursor n, c.ring ≤ a ∧ a < c.ring + c.size) ↔
      (head ≤ a ∧ a < head + buffMaxLen) ∧ (a - cursor) % buffMaxLen < n := by
  have hoff (ha : head ≤ a ∧ a < head + buffMaxLen) := emod_offset hl hh ha.1 ha.2
  unfold transferCopies
  split
  · simp only [List.mem_cons,List.not_mem_nil,or_false,exists_eq_or_imp,exists_eq_left]
    constructor
    · intro h
      have ha : head ≤ a ∧ a < head + buffMaxLen := by omega
      refine ⟨ha,?_⟩
      rw [hoff ha]
      split <;> omega
    · rintro ⟨ha,h⟩
      rw [hoff ha] at h
      split at h <;> omega
  · simp only [List.mem_cons,List.not_mem_nil,or_false,exists_eq_left]
    constructor
    · intro h
      have ha : head ≤ a ∧ a < head + buffMaxLen := by omega
      refine ⟨ha,?_⟩
      rw [hoff ha,if_pos h.1]
      omega
    · rintro ⟨ha,h⟩
      rw [hoff ha] at h
      split at h <;> omega

private theorem transferCopies_inside {head cursor : ℤ} {n : ℕ} (hl : head ≤ cursor)
    (hh : cursor ≤ head + buffMaxLen) (hn : n ≤ buffMaxLen) (c : Copy)
    (hc : c ∈ transferCopies head cursor n) :
    head ≤ c.ring ∧ c.ring + c.size ≤ head + buffMaxLen := by
  unfold transferCopies at hc
  split at hc
  · simp only [List.mem_cons,List.not_mem_nil,or_false] at hc
    rcases hc with rfl | rfl <;> simp only <;> omega
  · simp only [List.mem_cons,List.not_mem_nil,or_false] at hc
    subst hc
    simp only
    omega

section Calls

variable {s : RingBuff} {pBuff : Mem UInt8} {n : Int32}

@[simp] theorem writeRingBuff_pHead : (writeRingBuff s pBuff n).ring.pHead = s.pHead := by
  unfold writeRingBuff
  split_ifs <;> rfl

@[simp] theorem readRingBuff_pHead : (readRingBuff s pBuff n).ring.pHead = s.pHead := by
  unfold readRingBuff
  split_ifs <;> rfl

theorem writeRingBuff_null (h : s.pHead = 0) :
    writeRingBuff s pBuff n = ⟨vosErr, s, pBuff, []⟩ := by simp [writeRingBuff,h]

theorem writeRingBuff_tooLong (hs : s.Valid) (hn : buffMaxLen < n.toInt) :
    writeRingBuff s pBuff n = ⟨vosErr, s, pBuff, []⟩ := by
  have ht := hs.tail
  rw [writeRingBuff,if_neg hs.head_ne,if_pos (by omega)]

theorem writeRingBuff_accepted (hs : s.Valid) (h0 : 0 ≤ n.toInt) (hn : n.toInt ≤ buffMaxLen) :
    writeRingBuff s pBuff n =
      ⟨vosOk,
        { s with
          mem := put s.mem s.pHead buffMaxLen s.pValidWrite pBuff n.toInt.toNat
          pValidWrite := advance s.pHead buffMaxLen s.pValidWrite n.toInt.toNat },
        pBuff, transferCopies s.pHead s.pValidWrite n.toInt.toNat⟩ := by
  obtain ⟨hne,ht,-,-,hl,hh⟩ := hs
  obtain ⟨k,hk⟩ : ∃ k : ℕ, n.toInt = k := ⟨n.toInt.toNat,by omega⟩
  rw [writeRingBuff,if_neg hne,if_neg (by omega)]
  by_cases hw : s.pHead + buffMaxLen < s.pValidWrite + n.toInt
  · obtain ⟨p,hp⟩ : ∃ p : ℕ, s.pHead + buffMaxLen - s.pValidWrite = p :=
      ⟨(s.pHead + buffMaxLen - s.pValidWrite).toNat,by omega⟩
    obtain ⟨hpre,hpreT,hlast,hlastT⟩ := split_lengths (n := n) (p := p) (k := k)
      (by omega : s.pTail - s.pValidWrite = p) hk (by omega) (by omega)
    have hkN : k ≤ buffMaxLen := by omega
    rw [if_pos (by omega)]
    simp only [hpreT,hlastT,hpre,hlast,hk,copyIn,List.foldl_cons,List.foldl_nil,Int.toNat_natCast]
    rw [memcpy_memcpy_eq_put s.mem pBuff hl hh hkN (by omega) (by omega),
      advance,if_pos (by omega),transferCopies,if_pos (by omega),hp,Int.toNat_natCast]
    congr 2
    omega
  · have hfit : s.pValidWrite + (k : ℤ) ≤ s.pHead + buffMaxLen := by omega
    rw [if_neg (by omega)]
    simp only [sizeT_of_nonneg (by decide : 31 ≤ 64) h0,hk,copyIn,List.foldl_cons,
      List.foldl_nil,Int.toNat_natCast]
    rw [memcpy_eq_put s.mem pBuff hl hfit,advance,if_neg (by omega),transferCopies,
      if_neg (by omega)]

theorem readRingBuff_null (h : s.pHead = 0) :
    readRingBuff s pBuff n = ⟨vosErr, s, pBuff, []⟩ := by simp [readRingBuff,h]

theorem readRingBuff_tooLong (hs : s.Valid) (hn : buffMaxLen < n.toInt) :
    readRingBuff s pBuff n = ⟨vosErr, s, pBuff, []⟩ := by
  have ht := hs.tail
  rw [readRingBuff,if_neg hs.head_ne,if_pos (by omega)]

/-- An accepted read gets the bytes at the read cursor and advances it; nothing in the ring
changes. -/
theorem readRingBuff_accepted (hs : s.Valid) (h0 : 0 ≤ n.toInt) (hn : n.toInt ≤ buffMaxLen) :
    readRingBuff s pBuff n =
      ⟨n, { s with pValidRead := advance s.pHead buffMaxLen s.pValidRead n.toInt.toNat },
        get pBuff s.mem s.pHead buffMaxLen s.pValidRead n.toInt.toNat,
        if n = 0 then [] else transferCopies s.pHead s.pValidRead n.toInt.toNat⟩ := by
  obtain ⟨hne,ht,hl,hh,-,-⟩ := hs
  obtain ⟨k,hk⟩ : ∃ k : ℕ, n.toInt = k := ⟨n.toInt.toNat,by omega⟩
  rw [readRingBuff,if_neg hne,if_neg (by omega)]
  by_cases hz : n = 0
  · subst hz
    have hget : get pBuff s.mem s.pHead buffMaxLen s.pValidRead 0 = pBuff := by
      funext j
      exact get_outside pBuff s.mem (by omega)
    simp [vosOk,advance,hget,not_lt.mpr hh]
  rw [if_neg (Ne.symm hz),if_neg hz]
  by_cases hw : s.pHead + buffMaxLen < s.pValidRead + n.toInt
  · obtain ⟨p,hp⟩ : ∃ p : ℕ, s.pHead + buffMaxLen - s.pValidRead = p :=
      ⟨(s.pHead + buffMaxLen - s.pValidRead).toNat,by omega⟩
    obtain ⟨hpre,hpreT,hlast,hlastT⟩ := split_lengths (n := n) (p := p) (k := k)
      (by omega : s.pTail - s.pValidRead = p) hk (by omega) (by omega)
    have hkN : k ≤ buffMaxLen := by omega
    rw [if_pos (by omega)]
    simp only [hpreT,hlastT,hpre,hlast,hk,copyOut,List.foldl_cons,List.foldl_nil,Int.toNat_natCast]
    rw [memcpy_memcpy_eq_get pBuff s.mem hl hh hkN (by omega) (by omega),
      advance,if_pos (by omega),transferCopies,if_pos (by omega),hp,Int.toNat_natCast]
    congr 2
    omega
  · have hfit : s.pValidRead + (k : ℤ) ≤ s.pHead + buffMaxLen := by omega
    rw [if_neg (by omega)]
    simp only [sizeT_of_nonneg (by decide : 31 ≤ 64) h0,hk,copyOut,List.foldl_cons,
      List.foldl_nil,Int.toNat_natCast]
    rw [memcpy_eq_get pBuff s.mem hl hfit,advance,if_neg (by omega),transferCopies,
      if_neg (by omega)]

/-- The cells an accepted write reaches, counted from the write cursor around the ring. -/
theorem writeRingBuff_touches (hs : s.Valid) (h0 : 0 ≤ n.toInt) (hn : n.toInt ≤ buffMaxLen) (a : ℤ) :
    (writeRingBuff s pBuff n).Touches a ↔ (s.pHead ≤ a ∧ a < s.pHead + buffMaxLen) ∧
      (a - s.pValidWrite) % buffMaxLen < n.toInt.toNat := by
  rw [writeRingBuff_accepted hs h0 hn]
  exact transferCopies_touches hs.write_low hs.write_high (by omega)

theorem readRingBuff_touches (hs : s.Valid) (h0 : 0 ≤ n.toInt) (hn : n.toInt ≤ buffMaxLen) (a : ℤ) :
    (readRingBuff s pBuff n).Touches a ↔ (s.pHead ≤ a ∧ a < s.pHead + buffMaxLen) ∧
      (a - s.pValidRead) % buffMaxLen < n.toInt.toNat := by
  rw [← transferCopies_touches hs.read_low hs.read_high (by omega),readRingBuff_accepted hs h0 hn]
  by_cases hz : n = 0
  · subst hz
    rw [transferCopies_touches hs.read_low hs.read_high (by decide)]
    have hpos := Int.emod_nonneg (a - s.pValidRead) (show (buffMaxLen : ℤ) ≠ 0 by decide)
    simp [CallResult.Touches]
    omega
  · rw [if_neg hz]
    rfl

theorem RingBuff.Valid.write (hs : s.Valid) (pBuff : Mem UInt8) (h0 : 0 ≤ n.toInt) :
    (writeRingBuff s pBuff n).ring.Valid := by
  by_cases hn : n.toInt ≤ buffMaxLen
  · rw [writeRingBuff_accepted hs h0 hn]
    obtain ⟨hl,hh⟩ := advance_bounds hs.write_low hs.write_high (show n.toInt.toNat ≤ buffMaxLen by omega)
    exact ⟨hs.head_ne,hs.tail,hs.read_low,hs.read_high,hl,hh⟩
  · rwa [writeRingBuff_tooLong hs (not_le.mp hn)]

theorem RingBuff.Valid.read (hs : s.Valid) (pBuff : Mem UInt8) (h0 : 0 ≤ n.toInt) :
    (readRingBuff s pBuff n).ring.Valid := by
  by_cases hn : n.toInt ≤ buffMaxLen
  · rw [readRingBuff_accepted hs h0 hn]
    obtain ⟨hl,hh⟩ := advance_bounds hs.read_low hs.read_high (show n.toInt.toNat ≤ buffMaxLen by omega)
    exact ⟨hs.head_ne,hs.tail,hl,hh,hs.write_low,hs.write_high⟩
  · rwa [readRingBuff_tooLong hs (not_le.mp hn)]

theorem writeRingBuff_inside (hs : s.Valid) (h0 : 0 ≤ n.toInt) {c : Copy}
    (hc : c ∈ (writeRingBuff s pBuff n).copies) :
    s.pHead ≤ c.ring ∧ c.ring + c.size ≤ s.pHead + buffMaxLen := by
  by_cases hn : n.toInt ≤ buffMaxLen
  · rw [writeRingBuff_accepted hs h0 hn] at hc
    exact transferCopies_inside hs.write_low hs.write_high (by omega) c hc
  · rw [writeRingBuff_tooLong hs (not_le.mp hn)] at hc
    exact absurd hc List.not_mem_nil

theorem readRingBuff_inside (hs : s.Valid) (h0 : 0 ≤ n.toInt) {c : Copy}
    (hc : c ∈ (readRingBuff s pBuff n).copies) :
    s.pHead ≤ c.ring ∧ c.ring + c.size ≤ s.pHead + buffMaxLen := by
  by_cases hn : n.toInt ≤ buffMaxLen
  · rw [readRingBuff_accepted hs h0 hn] at hc
    by_cases hz : n = 0
    · rw [if_pos hz] at hc
      exact absurd hc List.not_mem_nil
    · rw [if_neg hz] at hc
      exact transferCopies_inside hs.read_low hs.read_high (by omega) c hc
  · rw [readRingBuff_tooLong hs (not_le.mp hn)] at hc
    exact absurd hc List.not_mem_nil

/-- A negative length passes the check, is added to the cursor and is copied as a huge size. -/
theorem writeRingBuff_negative (hs : s.Valid) (h : n.toInt < 0) :
    (writeRingBuff s pBuff n).ret = vosOk ∧
      (writeRingBuff s pBuff n).copies = [⟨s.pValidWrite, 0, sizeT 64 n⟩] := by
  obtain ⟨hne,ht,-,-,hl,hh⟩ := hs
  rw [writeRingBuff,if_neg hne,if_neg (by omega),if_neg (by omega)]
  exact ⟨rfl,rfl⟩

theorem readRingBuff_negative (hs : s.Valid) (h : n.toInt < 0) :
    (readRingBuff s pBuff n).ret = n ∧
      (readRingBuff s pBuff n).copies = [⟨s.pValidRead, 0, sizeT 64 n⟩] := by
  obtain ⟨hne,ht,hl,hh,-,-⟩ := hs
  have hz : ¬ 0 = n := by
    rintro rfl
    simp at h
  rw [readRingBuff,if_neg hne,if_neg (by omega),if_neg hz,if_neg (by omega)]
  exact ⟨rfl,rfl⟩

end Calls

end WamrTest
