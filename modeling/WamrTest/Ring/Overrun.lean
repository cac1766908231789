import WamrTest.Ring.Fifo

/-!
# What the ring checks and what it leaves to the caller

`WriteRingBuff` and `ReadRingBuff` compare a length with the size of the whole ring. They keep no
count, so whether a write runs over unread bytes, or a read past the written ones, is decided
by the caller's discipline alone.
-/

namespace WamrTest

open ByteMemory Circular Transition

namespace History

section Collision

variable {h : History} {n : Int32} (pBuff : Mem UInt8)

private theorem write_touches_unread (ht : h.Tracks) (h1 : 1 ≤ n.toInt) (hn : n.toInt ≤ buffMaxLen) :
    (∃ a, h.UnreadCell a ∧ (writeRingBuff h.ring pBuff n).Touches a) ↔
      buffMaxLen < h.unread + n.toInt := by
  obtain ⟨k,hk⟩ : ∃ k : ℕ, n.toInt = k := ⟨n.toInt.toNat,by omega⟩
  have hkN : k ≤ buffMaxLen := by omega
  have htouch (p : ℤ) : (writeRingBuff h.ring pBuff n).Touches (h.ring.pHead + p % buffMaxLen) ↔
      (p - h.written.length) % buffMaxLen < k := by
    rw [writeRingBuff_touches ht.valid (by omega) hn,hk,Int.toNat_natCast,ht.write.index]
    exact and_iff_right (cell_mem _ (by unfold buffMaxLen; omega) p)
  simp only [unread,hk]
  constructor
  · rintro ⟨_,⟨p,hp,hp',rfl⟩,hmeet⟩
    rw [htouch] at hmeet
    by_contra hfit
    rw [← Int.add_emod_right,Int.emod_eq_of_lt (by omega) (by omega)] at hmeet
    omega
  · intro hover
    by_cases hfull : h.consumed + buffMaxLen ≤ h.written.length
    · -- the ring has been lapped: the cell of the write cursor itself is unread
      refine ⟨_,⟨h.written.length - buffMaxLen,by omega,by unfold buffMaxLen at *; omega,rfl⟩,?_⟩
      rw [htouch,show ((h.written.length - buffMaxLen : ℕ) : ℤ) - h.written.length =
        -(buffMaxLen : ℤ) by omega,Int.neg_emod_self]
      omega
    · refine ⟨_,⟨h.consumed,le_rfl,by omega,rfl⟩,?_⟩
      rw [htouch,← Int.add_emod_right,Int.emod_eq_of_lt (by omega) (by omega)]
      omega

private theorem read_touches_unread (ht : h.Tracks) (h1 : 1 ≤ n.toInt) (hn : n.toInt ≤ buffMaxLen) :
    (∀ a, (readRingBuff h.ring pBuff n).Touches a → h.UnreadCell a) ↔ n.toInt ≤ h.unread := by
  obtain ⟨k,hk⟩ : ∃ k : ℕ, n.toInt = k := ⟨n.toInt.toNat,by omega⟩
  have hkN : k ≤ buffMaxLen := by omega
  have htouch (a : ℤ) : (readRingBuff h.ring pBuff n).Touches a ↔
      (h.ring.pHead ≤ a ∧ a < h.ring.pHead + buffMaxLen) ∧
        (a - h.ring.pValidRead) % buffMaxLen < k := by
    rw [readRingBuff_touches ht.valid (by omega) hn,hk,Int.toNat_natCast]
  simp only [unread,hk]
  constructor
  · intro hall
    by_contra hshort
    -- the cell after the last unread byte is read too
    obtain ⟨j,hj⟩ : ∃ j : ℕ, (j : ℤ) = max 0 ((h.written.length : ℤ) - h.consumed) :=
      ⟨(max 0 ((h.written.length : ℤ) - h.consumed)).toNat,by omega⟩
    have hmem := cell_mem h.ring.pHead (by omega : 0 < buffMaxLen) (h.consumed + (j : ℤ))
    obtain ⟨p,hp,hp',heq⟩ := hall (h.ring.pHead + ((h.consumed : ℤ) + j) % buffMaxLen) (by
      rw [htouch,ht.read.index]
      refine ⟨hmem,?_⟩
      rw [show (h.consumed : ℤ) + j - h.consumed = j by ring,Int.emod_eq_of_lt (by omega) (by omega)]
      omega)
    have hcong : ((h.consumed : ℤ) + j - p) % buffMaxLen = 0 :=
      Int.emod_eq_zero_of_dvd (Int.ModEq.dvd (show (p : ℤ) ≡ h.consumed + j [ZMOD buffMaxLen] by
        unfold Int.ModEq
        omega))
    rw [Int.emod_eq_of_lt (by omega) (by omega)] at hcong
    omega
  · intro henough a ha
    rw [htouch] at ha
    have haddr := ht.read.address ha.1.1 ha.1.2
    have hpos := Int.emod_nonneg (a - h.ring.pValidRead) (show (buffMaxLen : ℤ) ≠ 0 by omega)
    obtain ⟨j,hj⟩ : ∃ j : ℕ, (a - h.ring.pValidRead) % buffMaxLen = j :=
      ⟨((a - h.ring.pValidRead) % buffMaxLen).toNat,by omega⟩
    rw [hj] at haddr ha
    exact ⟨h.consumed + j,by omega,by omega,by rw [← haddr]; push_cast; rfl⟩

end Collision

/-- A ring that protects itself would refuse every call that overruns or underruns it. -/
def Protects (h : History) : Call → Prop
  | .write pBuff n =>
    let w := writeRingBuff h.ring pBuff n
    (w.ret = vosOk → ∀ a, h.UnreadCell a → ¬ w.Touches a) ∧
      (buffMaxLen < h.unread + n.toInt → w.ret = vosErr ∧ w.ring = h.ring)
  | .read pBuff n =>
    let r := readRingBuff h.ring pBuff n
    (r.ret = n → ∀ a, r.Touches a → h.UnreadCell a) ∧
      (h.unread < n.toInt → r.ret = vosErr ∧ r.ring = h.ring)

end History

open History

/-- The only guard is the size of the ring. Over every run with non-negative lengths, a call is
rejected exactly when its length exceeds `BUFF_MAX_LEN`, and then changes nothing; an accepted
write overwrites an unread byte exactly when it overruns, and an accepted read returns only
unread bytes exactly when it does not underrun. -/
theorem ringBuff_guard (block : Block) (mem : Mem UInt8) (calls : List Call)
    (hd : Guarded step (fun _ c => 0 ≤ c.length.toInt) (start block mem) calls)
    (pBuff : Mem UInt8) (n : Int32) (h0 : 0 ≤ n.toInt) :
    let h := run step (start block mem) calls
    let w := writeRingBuff h.ring pBuff n
    let r := readRingBuff h.ring pBuff n
    (w.ret = vosErr ↔ buffMaxLen < n.toInt) ∧ (w.ret ≠ vosErr → w.ret = vosOk) ∧
      (w.ret = vosErr → w.ring = h.ring) ∧ w.pBuff = pBuff ∧
      (w.ret = vosOk → 1 ≤ n.toInt →
        ((∃ a, h.UnreadCell a ∧ w.Touches a) ↔ buffMaxLen < h.unread + n.toInt)) ∧
      (r.ret = vosErr ↔ buffMaxLen < n.toInt) ∧ (r.ret ≠ vosErr → r.ret = n) ∧
      (r.ret = vosErr → r.ring = h.ring ∧ r.pBuff = pBuff) ∧
      (r.ret = n → 1 ≤ n.toInt → ((∀ a, r.Touches a → h.UnreadCell a) ↔ n.toInt ≤ h.unread)) := by
  have ht : (run step (start block mem) calls).Tracks :=
    hd.invariant (fun h c ht hc => ht.step c hc) (start_queue block mem).toTracks
  generalize run step (start block mem) calls = h at *
  have hnerr : n ≠ vosErr := by
    rintro rfl
    simp [vosErr] at h0
  by_cases hn : n.toInt ≤ buffMaxLen
  · have hw : writeRingBuff h.ring pBuff n = _ := writeRingBuff_accepted ht.valid h0 hn
    have hr : readRingBuff h.ring pBuff n = _ := readRingBuff_accepted ht.valid h0 hn
    have hwt := write_touches_unread (n := n) pBuff ht
    have hrt := read_touches_unread (n := n) pBuff ht
    simp only [hw,hr] at hwt hrt ⊢
    refine ⟨?_,fun _ => trivial,fun h => absurd h vosOk_ne_vosErr,trivial,fun _ h1 => hwt h1 hn,?_,fun _ => trivial,
      fun h => absurd h hnerr,fun _ h1 => hrt h1 hn⟩
    · exact ⟨fun h => absurd h vosOk_ne_vosErr,fun h => absurd hn (by omega)⟩
    · exact ⟨fun h => absurd h hnerr,fun h => absurd hn (by omega)⟩
  · have hlt : buffMaxLen < n.toInt := by omega
    simp only [writeRingBuff_tooLong ht.valid hlt,readRingBuff_tooLong ht.valid hlt]
    simp [hlt,vosOk_ne_vosErr.symm,hnerr.symm]

/-- After a write that fills the ring one more byte is accepted on top of the first one, and
the empty ring delivers a byte nobody wrote. -/
theorem ringBuff_overrun_accepted :
    Guarded step (fun _ c => 0 ≤ c.length.toInt) (start sampleBlock fun _ => 0)
        [.write (fun _ => 1) 8192, .write (fun _ => 2) 1] ∧
      ¬ Guarded step Protects (start sampleBlock fun _ => 0)
        [.write (fun _ => 1) 8192, .write (fun _ => 2) 1] ∧
      ¬ Guarded step Protects (start sampleBlock fun _ => 0) [.read (fun _ => 0) 1] := by
  have hq := start_queue sampleBlock fun _ => 0
  have hone : (1 : Int32).toInt = 1 := by decide
  have hsize : (8192 : Int32).toInt = 8192 := by decide
  refine ⟨⟨by decide,by decide,trivial⟩,?_,?_⟩
  · rintro ⟨-,h,-⟩
    have hlen : (8192 : Int32).toInt ≤ buffMaxLen := by decide
    have ht := hq.toTracks.step (.write (fun _ => 1) 8192) (by decide)
    have hover := h.2
    rw [writeRingBuff_accepted ht.valid (by decide) (by decide)] at hover
    rw [step_write_accepted hq.toTracks (by decide) hlen] at hover
    exact absurd (hover (by simp [unread,start,hone,hsize,buffMaxLen])).1 (by decide)
  · rintro ⟨h,-⟩
    have hunder := h.2
    rw [readRingBuff_accepted hq.valid (by decide) (by decide)] at hunder
    exact absurd (hunder (by simp [unread,start,hone])).1 (by decide)

/-- With three unread bytes in the ring, transfers of 8190 bytes overrun and underrun it, and a write of
8193 is rejected. -/
theorem ringBuff_guard_sample :
    let h := run step (start sampleBlock fun _ => 0) [.write (fun i => i.toNat.toUInt8) 5, .read (fun _ => 0) 2]
    (∃ a, h.UnreadCell a ∧ (writeRingBuff h.ring (fun _ => 9) 8190).Touches a) ∧
      (¬ ∀ a, (readRingBuff h.ring (fun _ => 9) 8190).Touches a → h.UnreadCell a) ∧
      (writeRingBuff h.ring (fun _ => 9) 8193).ret = vosErr ∧
      (writeRingBuff h.ring (fun _ => 9) 8193).ring = h.ring := by
  intro h
  have hd : Guarded step (fun _ c => 0 ≤ c.length.toInt) (start sampleBlock fun _ => 0)
      [.write (fun i => i.toNat.toUInt8) 5, .read (fun _ => 0) 2] := by decide
  obtain ⟨-,-,-,-,hover,-,-,-,hunder⟩ := ringBuff_guard _ _ _ hd (fun _ => 9) 8190 (by decide)
  obtain ⟨hlong,-,hkept,-⟩ := ringBuff_guard _ _ _ hd (fun _ => 9) 8193 (by decide)
  have hrejected := hlong.mpr (by decide)
  exact ⟨(hover (by decide) (by decide)).mpr (by decide),fun hall => absurd ((hunder (by decide) (by decide)).mp hall)
    (by decide),hrejected,hkept hrejected⟩

end WamrTest
