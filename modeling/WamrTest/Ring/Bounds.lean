import WamrTest.Ring.Guest
import Mathlib.Data.Int.ConditionallyCompleteOrder
import Mathlib.Order.ConditionallyCompleteLattice.Basic

/-!
# What a transfer touches

The cells of the ring and of the caller's buffer that a call reaches. The host checks a length
against the ring from above only, and the guest does not compare it with the size of `tmp` at all.
-/

namespace WamrTest

open ByteMemory MachineInt

def ringCells (copies : List Copy) : Set ℤ := {a | ∃ c ∈ copies, c.ring ≤ a ∧ a < c.ring + c.size}

def buffCells (copies : List Copy) : Set ℤ := {j | ∃ c ∈ copies, c.buff ≤ j ∧ j < c.buff + c.size}

private theorem ringCells_nil : ringCells [] = ∅ := by simp [ringCells]

private theorem buffCells_nil : buffCells [] = ∅ := by simp [buffCells]

private theorem transferCopies_ringCells {head cursor : ℤ} {n : ℕ} (hl : head ≤ cursor)
    (hh : cursor ≤ head + buffMaxLen) (hn : n ≤ buffMaxLen) :
    ringCells (transferCopies head cursor n) ⊆ Set.Ico head (head + buffMaxLen) := by
  intro a ha
  exact ((transferCopies_touches hl hh hn).mp ha).1

private theorem transferCopies_buffCells {head cursor : ℤ} {n : ℕ} (hh : cursor ≤ head + buffMaxLen) :
    buffCells (transferCopies head cursor n) = Set.Ico 0 (n : ℤ) := by
  ext j
  simp only [buffCells,transferCopies,Set.mem_ofPred_eq,Set.mem_Ico]
  split
  · simp only [List.mem_cons,List.not_mem_nil,or_false,exists_eq_or_imp,exists_eq_left]
    omega
  · simp only [List.mem_cons,List.not_mem_nil,or_false,exists_eq_left]
    omega

section Host

/-- The pointers of a ring, allocated or not. -/
structure RingBuff.InRange (s : RingBuff) : Prop where
  tail : s.pTail = s.pHead + buffMaxLen
  read_low : s.pHead ≤ s.pValidRead
  read_high : s.pValidRead ≤ s.pTail
  write_low : s.pHead ≤ s.pValidWrite
  write_high : s.pValidWrite ≤ s.pTail

/-- What a transfer of `n` bytes owes its caller, whatever `n` is. -/
structure CallResult.Contained (r : CallResult) (s : RingBuff) (pBuff : Mem UInt8) (n : Int32) :
    Prop where
  range : r.ring.InRange
  ring : ringCells r.copies ⊆ Set.Ico s.pHead s.pTail
  buff : buffCells r.copies ⊆ Set.Ico 0 (max 0 n.toInt)
  rejected : r.ret = vosErr → r.ring = s ∧ r.pBuff = pBuff

variable {s : RingBuff} {pBuff : Mem UInt8} {n : Int32}

theorem RingBuff.InRange.valid (hs : s.InRange) (h : s.pHead ≠ 0) : s.Valid :=
  ⟨h,hs.tail,hs.read_low,hs.tail ▸ hs.read_high,hs.write_low,hs.tail ▸ hs.write_high⟩

private theorem RingBuff.Valid.inRange (hs : s.Valid) : s.InRange :=
  ⟨hs.tail,hs.read_low,hs.tail ▸ hs.read_high,hs.write_low,hs.tail ▸ hs.write_high⟩

private theorem contained_rejected (hs : s.InRange) :
    (⟨vosErr, s, pBuff, []⟩ : CallResult).Contained s pBuff n := by
  refine ⟨hs,?_,?_,fun _ => ⟨rfl,rfl⟩⟩
  · rw [ringCells_nil]
    exact Set.empty_subset _
  · rw [buffCells_nil]
    exact Set.empty_subset _

private theorem contained_accepted {r : CallResult} {cursor : ℤ} {k : ℕ} (hr : r.ring.InRange)
    (ht : s.pTail = s.pHead + buffMaxLen) (hl : s.pHead ≤ cursor)
    (hh : cursor ≤ s.pHead + buffMaxLen) (hk : n.toInt = k) (hn : k ≤ buffMaxLen)
    (hcopies : r.copies ⊆ transferCopies s.pHead cursor k) (hret : r.ret ≠ vosErr) :
    r.Contained s pBuff n := by
  refine ⟨hr,?_,?_,fun h => absurd h hret⟩
  · intro a ha
    obtain ⟨c,hc,hcell⟩ := ha
    rw [ht]
    exact transferCopies_ringCells hl hh hn ⟨c,hcopies hc,hcell⟩
  · intro j hj
    obtain ⟨c,hc,hbyte⟩ := hj
    have hcell : j ∈ Set.Ico 0 (k : ℤ) := by
      rw [← transferCopies_buffCells hh]
      exact ⟨c,hcopies hc,hbyte⟩
    rwa [hk,max_eq_right (by omega)]

private theorem not_contained_negative {r : CallResult} {cursor : ℤ} (h : n.toInt < 0)
    (hcopies : r.copies = [⟨cursor, 0, sizeT 64 n⟩]) : ¬ r.Contained s pBuff n := by
  intro hr
  have hsize := sizeT_of_neg (w := 64) (by decide) h
  have hzero : (0 : ℤ) ∈ buffCells r.copies := by
    rw [hcopies]
    exact ⟨_,List.mem_singleton_self _,le_rfl,by simp only; omega⟩
  have hlt := (hr.buff hzero).2
  rw [max_eq_left h.le] at hlt
  exact absurd hlt (lt_irrefl 0)

private theorem write_contained (hs : s.Valid) (h0 : 0 ≤ n.toInt) :
    (writeRingBuff s pBuff n).Contained s pBuff n := by
  have hrange := (hs.write pBuff h0).inRange
  by_cases hn : n.toInt ≤ buffMaxLen
  · have hcall : writeRingBuff s pBuff n = _ := writeRingBuff_accepted hs h0 hn
    apply contained_accepted (k := n.toInt.toNat) hrange hs.tail hs.write_low hs.write_high
      (by omega) (by omega)
    · rw [hcall]
      exact List.Subset.refl _
    · rw [hcall]
      exact vosOk_ne_vosErr
  · rw [writeRingBuff_tooLong hs (not_le.mp hn)]
    exact contained_rejected hs.inRange

private theorem read_contained (hs : s.Valid) (h0 : 0 ≤ n.toInt) :
    (readRingBuff s pBuff n).Contained s pBuff n := by
  have hrange := (hs.read pBuff h0).inRange
  by_cases hn : n.toInt ≤ buffMaxLen
  · have hcall : readRingBuff s pBuff n = _ := readRingBuff_accepted hs h0 hn
    apply contained_accepted (k := n.toInt.toNat) hrange hs.tail hs.read_low hs.read_high
      (by omega) (by omega)
    · rw [hcall]
      change (if n = 0 then [] else transferCopies s.pHead s.pValidRead n.toInt.toNat) ⊆
        transferCopies s.pHead s.pValidRead n.toInt.toNat
      split
      · exact List.nil_subset _
      · exact List.Subset.refl _
    · rw [hcall]
      change n ≠ vosErr
      intro herr
      rw [herr] at h0
      exact absurd h0 (by decide)
  · rw [readRingBuff_tooLong hs (not_le.mp hn)]
    exact contained_rejected hs.inRange

end Host

/-- For every ring and every `int`, a transfer keeps the cursors in range, stays inside ring and
buffer and changes nothing when it fails if and only if its length is not negative or there is no
ring. -/
theorem transfer_contained (s : RingBuff) (hs : s.InRange) (pBuff : Mem UInt8) (n : Int32) :
    ((writeRingBuff s pBuff n).Contained s pBuff n ↔ s.pHead = 0 ∨ 0 ≤ n.toInt) ∧
      ((readRingBuff s pBuff n).Contained s pBuff n ↔ s.pHead = 0 ∨ 0 ≤ n.toInt) := by
  by_cases hhead : s.pHead = 0
  · rw [writeRingBuff_null hhead,readRingBuff_null hhead]
    have hrejected : (⟨vosErr, s, pBuff, []⟩ : CallResult).Contained s pBuff n := contained_rejected hs
    exact ⟨iff_of_true hrejected (.inl hhead),iff_of_true hrejected (.inl hhead)⟩
  · have hv := hs.valid hhead
    by_cases h0 : 0 ≤ n.toInt
    · exact ⟨iff_of_true (write_contained hv h0) (.inr h0),
        iff_of_true (read_contained hv h0) (.inr h0)⟩
    · have hneg : n.toInt < 0 := not_le.mp h0
      have hcond : ¬ (s.pHead = 0 ∨ 0 ≤ n.toInt) := by omega
      exact ⟨iff_of_false (not_contained_negative hneg (writeRingBuff_negative hv hneg).2) hcond,
        iff_of_false (not_contained_negative hneg (readRingBuff_negative hv hneg).2) hcond⟩

/-- A length of -1: the write is accepted and copies 2^64-1 bytes; the read copies as many, moves
the cursor in front of the ring and returns -1, which is `VOS_ERR`. -/
theorem transfer_escapes :
    let s : RingBuff := ⟨4096, 4096, 4096, 12288, fun _ => 0⟩
    s.InRange ∧ ¬ (writeRingBuff s (fun _ => 7) (-1)).Contained s (fun _ => 7) (-1) ∧
      ¬ (readRingBuff s (fun _ => 7) (-1)).Contained s (fun _ => 7) (-1) ∧
      (readRingBuff s (fun _ => 7) (-1)).ret = vosErr ∧
      (readRingBuff s (fun _ => 7) (-1)).ring.pValidRead = 4095 := by
  intro s
  have hs : s.InRange := ⟨by decide,by decide,by decide,by decide,by decide⟩
  have hv : s.Valid := hs.valid (by decide)
  have hneg : (-1 : Int32).toInt < 0 := by decide
  refine ⟨hs,not_contained_negative hneg (writeRingBuff_negative hv hneg).2,
    not_contained_negative hneg (readRingBuff_negative hv hneg).2,?_,?_⟩
  · exact (readRingBuff_negative hv hneg).1
  · decide

theorem transfer_contained_sample :
    (writeRingBuff ⟨4096, 4100, 12288, 12288, fun _ => 0⟩ (fun _ => 7) 8).Contained
      ⟨4096, 4100, 12288, 12288, fun _ => 0⟩ (fun _ => 7) 8 := by
  have hs : (⟨4096, 4100, 12288, 12288, fun _ => 0⟩ : RingBuff).InRange :=
    ⟨by decide,by decide,by decide,by decide,by decide⟩
  exact (transfer_contained _ hs (fun _ => 7) 8).1.mpr (.inr (by decide))

section Guest

/-- No index outside `tmp` and no address outside the ring is read or written. -/
structure GuestResult.Contained (r : GuestResult) (g : GuestRing) : Prop where
  tmp : buffCells r.copies ⊆ Set.Ico 0 (tmpSize : ℤ)
  ring : ringCells r.copies ⊆ Set.Ico (g.ringBufferHead.toNat : ℤ) g.ringBufferTail.toNat

variable {g : GuestRing} {lin : Mem UInt8} {wasmPtr len : UInt32}

private theorem GuestRing.Placed.contained_iff (h : g.Placed wasmPtr len) {r : GuestResult}
    (hcopies : r.copies =
      if len = 0 then [] else transferCopies g.ringBufferHead.toNat wasmPtr.toNat len.toNat) :
    r.Contained g ↔ len.toNat ≤ tmpSize := by
  obtain ⟨ht,hl,hh,hf,-⟩ := h
  by_cases hz : len = 0
  · subst hz
    rw [if_pos rfl] at hcopies
    apply iff_of_true _ (Nat.zero_le _)
    constructor
    · rw [hcopies,buffCells_nil]
      exact Set.empty_subset _
    · rw [hcopies,ringCells_nil]
      exact Set.empty_subset _
  · rw [if_neg hz] at hcopies
    have hbuff : buffCells r.copies = Set.Ico 0 (len.toNat : ℤ) := by
      rw [hcopies]
      exact transferCopies_buffCells (by omega)
    constructor
    · intro hr
      by_contra hlong
      have hmem : (tmpSize : ℤ) ∈ Set.Ico 0 (len.toNat : ℤ) := ⟨by omega,by omega⟩
      rw [← hbuff] at hmem
      exact absurd (hr.tmp hmem).2 (lt_irrefl _)
    · intro hn
      constructor
      · rw [hbuff]
        apply Set.Ico_subset_Ico_right
        exact_mod_cast hn
      · rw [hcopies,ht]
        push_cast
        exact transferCopies_ringCells (by omega) (by omega) hf

/-- The comparison that decides about wrapping is made on 32 bits. A transfer that passes the end
of the address space looks as if it fitted. -/
theorem not_contained_wrapped (lin : Mem UInt8)
    (ht : g.ringBufferTail.toNat = g.ringBufferHead.toNat + buffMaxLen)
    (hh : wasmPtr.toNat ≤ g.ringBufferTail.toNat) (hf : len.toNat ≤ buffMaxLen)
    (hwrap : 2 ^ 32 ≤ wasmPtr.toNat + len.toNat) :
    ¬ (writeBuffer g lin wasmPtr len).Contained g ∧ ¬ (readBuffer g lin wasmPtr len).Contained g := by
  have htl := g.ringBufferTail.toNat_lt
  have hpl := wasmPtr.toNat_lt
  unfold buffMaxLen at *
  have hsum : (wasmPtr + len).toNat = wasmPtr.toNat + len.toNat - 2 ^ 32 := by
    rw [UInt32.toNat_add]
    omega
  have hfits : ¬ wasmPtr + len > g.ringBufferTail := by
    rw [gt_iff_lt,UInt32.lt_iff_toNat_lt,hsum]
    omega
  have hne : len ≠ 0 := by
    intro hz
    rw [hz,UInt32.toNat_zero] at hwrap
    omega
  have hescape {r : GuestResult} (hr : r.copies = [⟨wasmPtr.toNat, 0, len.toNat⟩]) :
      ¬ r.Contained g := by
    intro hc
    have hcell : (wasmPtr.toNat : ℤ) + len.toNat - 1 ∈ ringCells r.copies := by
      rw [hr]
      refine ⟨_,List.mem_singleton_self _,?_,?_⟩ <;> simp only <;> omega
    have hlt := (hc.ring hcell).2
    omega
  constructor
  · apply hescape
    rw [writeBuffer,if_neg hne,if_neg hfits]
  · apply hescape
    rw [readBuffer,if_neg hne,if_neg hfits]

end Guest

/-- For every ring of `BUFF_MAX_LEN` bytes that `init_ringbuffer` sets, every address in it or at
its end and every length the host accepts, the guest's transfers stay inside `tmp` and the ring if
and only if the length is at most the size of `tmp` and the addresses do not pass 2^32. -/
theorem guest_contained (g : GuestRing) (lin : Mem UInt8) (head tail outPtr wasmPtr len : UInt32)
    (ht : tail.toNat = head.toNat + buffMaxLen) (hl : head ≤ wasmPtr) (hh : wasmPtr ≤ tail)
    (hlen : len.toNat ≤ buffMaxLen) :
    let guest := initRingbuffer g head tail outPtr
    ((writeBuffer guest lin wasmPtr len).Contained guest ↔
        len.toNat ≤ tmpSize ∧ wasmPtr.toNat + len.toNat < 2 ^ 32) ∧
      ((readBuffer guest lin wasmPtr len).Contained guest ↔
        len.toNat ≤ tmpSize ∧ wasmPtr.toNat + len.toNat < 2 ^ 32) := by
  intro guest
  rw [UInt32.le_iff_toNat_le] at hl hh
  by_cases hwrap : wasmPtr.toNat + len.toNat < 2 ^ 32
  · have hp : guest.Placed wasmPtr len := ⟨ht,hl,ht ▸ hh,hlen,hwrap⟩
    simp only [hwrap,and_true]
    constructor
    · apply hp.contained_iff
      rw [writeBuffer_placed hp]
    · apply hp.contained_iff
      rw [readBuffer_placed hp]
  · obtain ⟨hw,hr⟩ := not_contained_wrapped (g := guest) lin ht hh hlen (not_lt.mp hwrap)
    exact ⟨iff_of_false hw (fun h => hwrap h.2),iff_of_false hr (fun h => hwrap h.2)⟩

/-- One byte more than `tmp` has. -/
theorem guest_escapes :
    let guest := initRingbuffer ⟨fun _ => 0, 0, 0, 0⟩ 65536 73728 0
    ¬ (writeBuffer guest (fun _ => 0) 65536 4097).Contained guest ∧
      ¬ (readBuffer guest (fun _ => 0) 65536 4097).Contained guest := by
  intro guest
  have hp : guest.Placed 65536 4097 := ⟨by decide,by decide,by decide,by decide,by decide⟩
  have hlong : ¬ (4097 : UInt32).toNat ≤ tmpSize := by decide
  constructor
  · intro h
    apply hlong
    apply (hp.contained_iff _).mp h
    rw [writeBuffer_placed hp]
  · intro h
    apply hlong
    apply (hp.contained_iff _).mp h
    rw [readBuffer_placed hp]

theorem guest_contained_sample :
    let guest := initRingbuffer ⟨fun _ => 0, 0, 0, 0⟩ 65536 73728 0
    (readBuffer guest (fun _ => 0) 73726 4096).Contained guest :=
  (guest_contained ⟨fun _ => 0, 0, 0, 0⟩ (fun _ => 0) 65536 73728 0 73726 4096 (by decide)
    (by decide) (by decide) (by decide)).2.mpr ⟨by decide,by decide⟩

end WamrTest
