import WamrTest.Ring.Host

/-!
# The guest's side of the ring

`init_ringbuffer`, `writeBuffer` and `readBuffer` of `wasm-app/testapp.c`, with 32-bit guest
addresses, against the host's `WriteRingBuff` and `ReadRingBuff`. The ring block is the same
memory on both sides: guest address `g` is native address `memory_data + g`.
-/

namespace WamrTest

open ByteMemory Circular MachineInt

/-- The instance's linear memory. `main` translates the ring's addresses before any guest code
runs, on the 2147483648 bytes of `--initial-memory` plus at most two pages of inserted app heap. -/
structure ModuleInst where
  memoryData : ℤ
  memoryDataSize : ℕ
  size_le : memoryDataSize ≤ 2147483648 + 2 * 65536

/-- `wasm_runtime_addr_native_to_app`; 0 reports an address outside the linear memory. -/
def addrNativeToApp (inst : ModuleInst) (nativePtr : ℤ) : UInt32 :=
  if inst.memoryData ≤ nativePtr ∧ nativePtr < inst.memoryData + inst.memoryDataSize then
    UInt32.ofNat (nativePtr - inst.memoryData).toNat
  else 0

def linear (inst : ModuleInst) (mem : Mem UInt8) : Mem UInt8 := fun a => mem (inst.memoryData + a)

/-- The native memory after the guest left `lin` in its linear memory. -/
def native (inst : ModuleInst) (mem lin : Mem UInt8) : Mem UInt8 :=
  fun a => if inst.memoryData ≤ a ∧ a < inst.memoryData + inst.memoryDataSize then
    lin (a - inst.memoryData) else mem a

structure GuestRing where
  tmp : Mem UInt8
  ringBufferHead : UInt32
  ringBufferTail : UInt32
  out : UInt32

def tmpSize : ℕ := 4096

def initRingbuffer (g : GuestRing) (head tail outPtr : UInt32) : GuestRing :=
  { g with ringBufferHead := head, ringBufferTail := tail, out := outPtr }

/-- The guest's globals and linear memory after a call, and the copies it made between the
ring and `tmp`. -/
structure GuestResult where
  guest : GuestRing
  lin : Mem UInt8
  copies : List Copy

def writeBuffer (g : GuestRing) (lin : Mem UInt8) (wasmPtr len : UInt32) : GuestResult :=
  if len = 0 then ⟨g, lin, []⟩
  else if wasmPtr + len > g.ringBufferTail then
    let preLen := (g.ringBufferTail - wasmPtr).toInt32
    let lastLen := (len - preLen.toUInt32).toInt32
    let copies := [⟨wasmPtr.toNat, 0, sizeT 32 preLen⟩,
      ⟨g.ringBufferHead.toNat, preLen.toInt, sizeT 32 lastLen⟩]
    ⟨g, copyIn lin g.tmp copies, copies⟩
  else
    let copies := [⟨wasmPtr.toNat, 0, len.toNat⟩]
    ⟨g, copyIn lin g.tmp copies, copies⟩

def readBuffer (g : GuestRing) (lin : Mem UInt8) (wasmPtr len : UInt32) : GuestResult :=
  if len = 0 then ⟨g, lin, []⟩
  else if wasmPtr + len > g.ringBufferTail then
    let preLen := (g.ringBufferTail - wasmPtr).toInt32
    let lastLen := (len - preLen.toUInt32).toInt32
    let copies := [⟨wasmPtr.toNat, 0, sizeT 32 preLen⟩,
      ⟨g.ringBufferHead.toNat, preLen.toInt, sizeT 32 lastLen⟩]
    ⟨{ g with tmp := copyOut g.tmp lin copies }, lin, copies⟩
  else
    let copies := [⟨wasmPtr.toNat, 0, len.toNat⟩]
    ⟨{ g with tmp := copyOut g.tmp lin copies }, lin, copies⟩

/-- The guest's ring is a ring, the address is in it or at its end, and adding a length to the
address stays below 2^32. -/
structure GuestRing.Placed (g : GuestRing) (wasmPtr len : UInt32) : Prop where
  tail : g.ringBufferTail.toNat = g.ringBufferHead.toNat + buffMaxLen
  low : g.ringBufferHead.toNat ≤ wasmPtr.toNat
  high : wasmPtr.toNat ≤ g.ringBufferHead.toNat + buffMaxLen
  fits : len.toNat ≤ buffMaxLen
  nowrap : wasmPtr.toNat + len.toNat < 2 ^ 32

section Calls

variable {g : GuestRing} {lin : Mem UInt8} {wasmPtr len : UInt32}

private theorem GuestRing.Placed.gt_iff (h : g.Placed wasmPtr len) :
    wasmPtr + len > g.ringBufferTail ↔
      g.ringBufferHead.toNat + buffMaxLen < wasmPtr.toNat + len.toNat := by
  rw [gt_iff_lt,UInt32.lt_iff_toNat_lt,UInt32.toNat_add,Nat.mod_eq_of_lt h.nowrap,h.tail]

private theorem GuestRing.Placed.lengths (h : g.Placed wasmPtr len) {p : ℕ}
    (hp : g.ringBufferHead.toNat + buffMaxLen = wasmPtr.toNat + p) (hpl : p ≤ len.toNat) :
    (g.ringBufferTail - wasmPtr).toInt32.toInt = p ∧
      sizeT 32 (g.ringBufferTail - wasmPtr).toInt32 = p ∧
      sizeT 32 (len - (g.ringBufferTail - wasmPtr).toInt32.toUInt32).toInt32 = len.toNat - p := by
  obtain ⟨ht,hl,hh,hf,-⟩ := h
  unfold buffMaxLen at *
  have hsub : (g.ringBufferTail - wasmPtr).toNat = p := by
    rw [UInt32.toNat_sub_of_le _ _ (UInt32.le_iff_toNat_le.mpr (by omega))]
    omega
  have hpre := toInt_toInt32_of_lt (x := g.ringBufferTail - wasmPtr) (by omega)
  rw [UInt32.toUInt32_toInt32]
  have hrest : (len - (g.ringBufferTail - wasmPtr)).toNat = len.toNat - p := by
    rw [UInt32.toNat_sub_of_le _ _ (UInt32.le_iff_toNat_le.mpr (by omega)),hsub]
  have hlast := toInt_toInt32_of_lt (x := len - (g.ringBufferTail - wasmPtr)) (by omega)
  refine ⟨by omega,?_,?_⟩
  · rw [sizeT_of_nonneg (by decide) (by omega),hpre]
    omega
  · rw [sizeT_of_nonneg (by decide) (by omega),hlast]
    omega

theorem writeBuffer_placed (h : g.Placed wasmPtr len) :
    writeBuffer g lin wasmPtr len =
      ⟨g, put lin g.ringBufferHead.toNat buffMaxLen wasmPtr.toNat g.tmp len.toNat,
        if len = 0 then [] else
          transferCopies g.ringBufferHead.toNat wasmPtr.toNat len.toNat⟩ := by
  obtain ⟨ht,hl,hh,hf,-⟩ := id h
  rw [writeBuffer]
  by_cases hz : len = 0
  · subst hz
    have hput : put lin g.ringBufferHead.toNat buffMaxLen wasmPtr.toNat g.tmp 0 = lin := by
      rw [← memcpy_eq_put lin g.tmp (by omega) (by omega),memcpy_zero]
    simp [hput]
  rw [if_neg hz,if_neg hz]
  by_cases hw : g.ringBufferHead.toNat + buffMaxLen < wasmPtr.toNat + len.toNat
  · obtain ⟨p,hp⟩ : ∃ p : ℕ, g.ringBufferHead.toNat + buffMaxLen = wasmPtr.toNat + p :=
      ⟨g.ringBufferHead.toNat + buffMaxLen - wasmPtr.toNat,by omega⟩
    obtain ⟨hpre,hpreT,hlastT⟩ := h.lengths hp (by omega)
    have hpz : ((g.ringBufferHead.toNat : ℤ) + buffMaxLen - wasmPtr.toNat).toNat = p := by omega
    rw [if_pos (h.gt_iff.mpr hw)]
    simp only [hpre,hpreT,hlastT,copyIn,List.foldl_cons,List.foldl_nil]
    rw [memcpy_memcpy_eq_put lin g.tmp (by omega) (by omega) hf (by omega) (by omega),
      transferCopies,if_pos (by omega),hpz]
  · have hlow : (g.ringBufferHead.toNat : ℤ) ≤ wasmPtr.toNat := by omega
    have hfit : (wasmPtr.toNat : ℤ) + len.toNat ≤ g.ringBufferHead.toNat + buffMaxLen := by omega
    rw [if_neg (fun hgt => hw (h.gt_iff.mp hgt))]
    simp only [copyIn,List.foldl_cons,List.foldl_nil]
    rw [memcpy_eq_put lin g.tmp hlow hfit,transferCopies,if_neg (by omega)]

theorem readBuffer_placed (h : g.Placed wasmPtr len) :
    readBuffer g lin wasmPtr len =
      ⟨{ g with
          tmp := get g.tmp lin g.ringBufferHead.toNat buffMaxLen wasmPtr.toNat len.toNat },
        lin, if len = 0 then [] else
          transferCopies g.ringBufferHead.toNat wasmPtr.toNat len.toNat⟩ := by
  obtain ⟨ht,hl,hh,hf,-⟩ := id h
  rw [readBuffer]
  by_cases hz : len = 0
  · subst hz
    have hget : get g.tmp lin g.ringBufferHead.toNat buffMaxLen wasmPtr.toNat 0 = g.tmp := by
      rw [← memcpy_eq_get g.tmp lin (by omega) (by omega),memcpy_zero]
    simp [hget]
  rw [if_neg hz,if_neg hz]
  by_cases hw : g.ringBufferHead.toNat + buffMaxLen < wasmPtr.toNat + len.toNat
  · obtain ⟨p,hp⟩ : ∃ p : ℕ, g.ringBufferHead.toNat + buffMaxLen = wasmPtr.toNat + p :=
      ⟨g.ringBufferHead.toNat + buffMaxLen - wasmPtr.toNat,by omega⟩
    obtain ⟨hpre,hpreT,hlastT⟩ := h.lengths hp (by omega)
    have hpz : ((g.ringBufferHead.toNat : ℤ) + buffMaxLen - wasmPtr.toNat).toNat = p := by omega
    rw [if_pos (h.gt_iff.mpr hw)]
    simp only [hpre,hpreT,hlastT,copyOut,List.foldl_cons,List.foldl_nil]
    rw [memcpy_memcpy_eq_get g.tmp lin (by omega) (by omega) hf (by omega) (by omega),
      transferCopies,if_pos (by omega),hpz]
  · have hlow : (g.ringBufferHead.toNat : ℤ) ≤ wasmPtr.toNat := by omega
    have hfit : (wasmPtr.toNat : ℤ) + len.toNat ≤ g.ringBufferHead.toNat + buffMaxLen := by omega
    rw [if_neg (fun hgt => hw (h.gt_iff.mp hgt))]
    simp only [copyOut,List.foldl_cons,List.foldl_nil]
    rw [memcpy_eq_get g.tmp lin hlow hfit,transferCopies,if_neg (by omega)]

end Calls

/-- A transfer of `n` bytes of `src` into the ring at `head`, byte `j` to cell `(c + j) mod`
`BUFF_MAX_LEN` and to no other. -/
def WritesCells (head c : ℤ) (n : ℕ) (src before after : Mem UInt8) : Prop :=
  (∀ j : ℕ, j < n → after (head + (c + j) % buffMaxLen) = src j) ∧
    ∀ a, head ≤ a → a < head + buffMaxLen →
      (∀ j : ℕ, j < n → a ≠ head + (c + j) % buffMaxLen) → after a = before a

/-- A transfer of `n` bytes out of the ring, byte `j` from cell `(c + j) mod BUFF_MAX_LEN`. -/
def ReadsCells (head c : ℤ) (n : ℕ) (ring before after : Mem UInt8) : Prop :=
  (∀ j : ℕ, j < n → after j = ring (head + (c + j) % buffMaxLen)) ∧
    ∀ j : ℤ, n ≤ j → after j = before j

private theorem put_writesCells {head cursor : ℤ} {n : ℕ} (ring src : Mem UInt8) (hn : n ≤ buffMaxLen)
    (hl : head ≤ cursor) (hh : cursor ≤ head + buffMaxLen) :
    WritesCells head (cursor - head) n src ring (put ring head buffMaxLen cursor src n) := by
  obtain ⟨k,hk⟩ : ∃ k : ℕ, cursor - head = k := ⟨(cursor - head).toNat,by omega⟩
  have hcur : Cursor head buffMaxLen cursor k := ⟨hl,hh,by rw [hk]⟩
  rw [hk]
  refine ⟨fun j hj => put_ahead ring src hcur hj hn,?_⟩
  intro a ha ha' hne
  apply put_untouched
  by_contra hlt
  have hpos := Int.emod_nonneg (a - cursor) (show (buffMaxLen : ℤ) ≠ 0 by omega)
  have hcell := hne ((a - cursor) % buffMaxLen).toNat (by omega)
  rw [Int.toNat_of_nonneg hpos] at hcell
  exact hcell (hcur.address ha ha').symm

private theorem get_readsCells (head cursor : ℤ) (n : ℕ) (dst ring : Mem UInt8) :
    ReadsCells head (cursor - head) n ring dst (get dst ring head buffMaxLen cursor n) :=
  ⟨fun _ hj => get_inside dst ring (by omega) (by omega),
    fun _ hj => get_outside dst ring (Or.inr hj)⟩

private theorem ReadsCells.of_writes {head c : ℤ} {n : ℕ} {src ring before old after : Mem UInt8}
    (hw : WritesCells head c n src before ring) (hr : ReadsCells head c n ring old after)
    (j : ℕ) (hj : j < n) : after j = src j := by
  rw [hr.1 j hj,hw.1 j hj]

private theorem get_linear (inst : ModuleInst) (dst mem : Mem UInt8) (head cursor : ℤ) (n : ℕ) :
    get dst (linear inst mem) (head - inst.memoryData) buffMaxLen (cursor - inst.memoryData) n =
      get dst mem head buffMaxLen cursor n := by
  funext j
  simp only [Circular.get,linear,sub_sub_sub_cancel_right]
  congr 2
  ring

private theorem native_put (inst : ModuleInst) (mem src : Mem UInt8) {head : ℤ} (cursor : ℤ) (n : ℕ)
    (hl : inst.memoryData ≤ head)
    (hh : head + buffMaxLen ≤ inst.memoryData + inst.memoryDataSize) :
    native inst mem (put (linear inst mem) (head - inst.memoryData) buffMaxLen
      (cursor - inst.memoryData) src n) = put mem head buffMaxLen cursor src n := by
  funext a
  by_cases ha : inst.memoryData ≤ a ∧ a < inst.memoryData + inst.memoryDataSize
  · have hring : (head - inst.memoryData ≤ a - inst.memoryData ∧
        a - inst.memoryData < head - inst.memoryData + buffMaxLen) ↔
        (head ≤ a ∧ a < head + buffMaxLen) := by omega
    have haddr : inst.memoryData + (a - inst.memoryData) = a := by ring
    rw [native,if_pos ha]
    simp only [Circular.put,linear,sub_sub_sub_cancel_right,hring,haddr]
  · rw [native,if_neg ha,put_outside mem src (by omega)]

theorem addrNativeToApp_toNat {inst : ModuleInst} {nativePtr : ℤ}
    (hl : inst.memoryData ≤ nativePtr) (hh : nativePtr < inst.memoryData + inst.memoryDataSize) :
    ((addrNativeToApp inst nativePtr).toNat : ℤ) = nativePtr - inst.memoryData := by
  have hsize := inst.size_le
  rw [addrNativeToApp,if_pos ⟨hl,hh⟩,UInt32.toNat_ofNat_of_lt' (by simp only [UInt32.size]; omega)]
  omega

private theorem addrNativeToApp_range {inst : ModuleInst} {nativePtr : ℤ}
    (h : addrNativeToApp inst nativePtr ≠ 0) :
    inst.memoryData ≤ nativePtr ∧ nativePtr < inst.memoryData + inst.memoryDataSize := by
  by_contra hout
  exact h (if_neg hout)

/-- The host's ring, seen through translated pointers, is a ring of the guest. -/
theorem placed_of_translated {inst : ModuleInst} {s : RingBuff} (g : GuestRing) (outPtr : UInt32)
    (ht : s.pTail = s.pHead + buffMaxLen) (hhead : addrNativeToApp inst s.pHead ≠ 0)
    (htail : addrNativeToApp inst s.pTail ≠ 0) {ptr : ℤ} {n : Int32} (hl : s.pHead ≤ ptr)
    (hh : ptr ≤ s.pHead + buffMaxLen) (h0 : 0 ≤ n.toInt) (hn : n.toInt ≤ buffMaxLen) :
    (initRingbuffer g (addrNativeToApp inst s.pHead) (addrNativeToApp inst s.pTail) outPtr).Placed
        (addrNativeToApp inst ptr) n.toUInt32 ∧
      ((addrNativeToApp inst s.pHead).toNat : ℤ) = s.pHead - inst.memoryData ∧
      ((addrNativeToApp inst ptr).toNat : ℤ) = ptr - inst.memoryData := by
  obtain ⟨hh1,hh2⟩ := addrNativeToApp_range hhead
  obtain ⟨ht1,ht2⟩ := addrNativeToApp_range htail
  have eh := addrNativeToApp_toNat hh1 hh2
  have et := addrNativeToApp_toNat ht1 ht2
  have ep := addrNativeToApp_toNat (by omega : inst.memoryData ≤ ptr) (by omega)
  have en := toNat_toUInt32_of_nonneg h0
  have hsize := inst.size_le
  unfold buffMaxLen at *
  refine ⟨⟨?_,?_,?_,?_,?_⟩,eh,ep⟩
  · change (addrNativeToApp inst s.pTail).toNat = (addrNativeToApp inst s.pHead).toNat + 8192
    omega
  · change (addrNativeToApp inst s.pHead).toNat ≤ (addrNativeToApp inst ptr).toNat
    omega
  · change (addrNativeToApp inst ptr).toNat ≤ (addrNativeToApp inst s.pHead).toNat + 8192
    omega
  · change n.toUInt32.toNat ≤ 8192
    omega
  · omega

/-- Host and guest make the same wrap decision and the same split. For every cursor in the ring
or at its end and every length up to the size of `tmp`, each of the four routines moves byte `j`
between the caller's buffer and cell `(c + j) mod BUFF_MAX_LEN`, so a write on either side is
read back on the other. -/
theorem host_guest_agree (inst : ModuleInst) (s : RingBuff) (g : GuestRing) (outPtr : UInt32)
    (hs : s.Valid) (hhead : addrNativeToApp inst s.pHead ≠ 0)
    (htail : addrNativeToApp inst s.pTail ≠ 0) (pBuff : Mem UInt8) (n : Int32)
    (h0 : 0 ≤ n.toInt) (hn : n.toInt ≤ tmpSize) :
    let guest := initRingbuffer g (addrNativeToApp inst s.pHead) (addrNativeToApp inst s.pTail) outPtr
    let k := n.toInt.toNat
    (let c := s.pValidWrite - s.pHead
      let w := writeRingBuff s pBuff n
      let r := readBuffer guest (linear inst w.ring.mem) (addrNativeToApp inst s.pValidWrite) n.toUInt32
      w.ret = vosOk ∧ WritesCells s.pHead c k pBuff s.mem w.ring.mem ∧
        ReadsCells s.pHead c k w.ring.mem g.tmp r.guest.tmp ∧
        (∀ j : ℕ, j < k → r.guest.tmp j = pBuff j) ∧ r.lin = linear inst w.ring.mem) ∧
    (let c := s.pValidRead - s.pHead
      let w := writeBuffer guest (linear inst s.mem) (addrNativeToApp inst s.pValidRead) n.toUInt32
      let mem := native inst s.mem w.lin
      let r := readRingBuff { s with mem := mem } pBuff n
      w.guest = guest ∧ WritesCells s.pHead c k g.tmp s.mem mem ∧ r.ret = n ∧
        ReadsCells s.pHead c k mem pBuff r.pBuff ∧
        (∀ j : ℕ, j < k → r.pBuff j = g.tmp j) ∧ r.ring.mem = mem) := by
  have hnB : n.toInt ≤ buffMaxLen := by
    unfold tmpSize at hn
    unfold buffMaxLen
    omega
  have hkB : n.toInt.toNat ≤ buffMaxLen := by omega
  have hlen := toNat_toUInt32_of_nonneg h0
  obtain ⟨hm,-⟩ := addrNativeToApp_range hhead
  obtain ⟨-,hm'⟩ := addrNativeToApp_range htail
  rw [hs.tail] at hm'
  constructor
  · obtain ⟨hp,eh,ep⟩ := placed_of_translated g outPtr hs.tail hhead htail hs.write_low
      hs.write_high h0 hnB
    have hw := put_writesCells s.mem pBuff hkB hs.write_low hs.write_high
    have hr := get_readsCells s.pHead s.pValidWrite n.toInt.toNat g.tmp
      (put s.mem s.pHead buffMaxLen s.pValidWrite pBuff n.toInt.toNat)
    simp only [writeRingBuff_accepted hs h0 hnB,readBuffer_placed hp]
    simp only [initRingbuffer,eh,ep,hlen,get_linear]
    exact ⟨trivial,hw,hr,hr.of_writes hw,trivial⟩
  · obtain ⟨hp,eh,ep⟩ := placed_of_translated g outPtr hs.tail hhead htail hs.read_low
      hs.read_high h0 hnB
    have hw := put_writesCells s.mem g.tmp hkB hs.read_low hs.read_high
    have hr := get_readsCells s.pHead s.pValidRead n.toInt.toNat pBuff
      (put s.mem s.pHead buffMaxLen s.pValidRead g.tmp n.toInt.toNat)
    have hs' (mem : Mem UInt8) : ({ s with mem := mem } : RingBuff).Valid :=
      ⟨hs.head_ne,hs.tail,hs.read_low,hs.read_high,hs.write_low,hs.write_high⟩
    simp only [writeBuffer_placed hp,readRingBuff_accepted (hs' _) h0 hnB]
    simp only [initRingbuffer,eh,ep,hlen,native_put inst s.mem g.tmp s.pValidRead n.toInt.toNat hm
      hm'.le]
    exact ⟨trivial,hw,trivial,hr,hr.of_writes hw,trivial⟩

theorem host_guest_agree_sample :
    let inst : ModuleInst := ⟨4096, 2147483648 + 65536, by decide⟩
    let s : RingBuff := ⟨4096 + 2147483664, 4096 + 2147483664, 4096 + 2147491854,
      4096 + 2147491856, fun _ => 0⟩
    let g : GuestRing := ⟨fun _ => 0, 0, 0, 0⟩
    let w := writeRingBuff s (fun i => i.toNat.toUInt8) 5
    (readBuffer (initRingbuffer g (addrNativeToApp inst s.pHead) (addrNativeToApp inst s.pTail) 0)
      (linear inst w.ring.mem) (addrNativeToApp inst s.pValidWrite) 5).guest.tmp 4 = 4 := by
  intro inst s g w
  have hs : s.Valid := ⟨by decide,by decide,by decide,by decide,by decide,by decide⟩
  exact (host_guest_agree inst s g 0 hs (by decide) (by decide) (fun i => i.toNat.toUInt8) 5
    (by decide) (by decide)).1.2.2.2.1 4 (by decide)

end WamrTest
