import WamrTest.Framework.Run
import WamrTest.Ring.Host

/-!
# The ring as a queue

A history pairs the ring with the bytes written and the number of bytes read so far. Whatever
lengths the calls pass, the two cursors stand for these stream positions modulo the ring size;
as long as the caller keeps the unread bytes between 0 and `BUFF_MAX_LEN` the ring holds them
and the calls behave as a FIFO. The ring itself only checks a length against its whole size.
-/

namespace WamrTest

open ByteMemory Circular Transition

inductive Call
  | write (pBuff : Mem UInt8) (addLen : Int32)
  | read (pBuff : Mem UInt8) (len : Int32)

def Call.length : Call → Int32
  | .write _ n => n
  | .read _ n => n

/-- A call with a length that is not negative is too long for the ring, or a write or a read of a
length the ring accepts. -/
@[elab_as_elim]
theorem Call.byLength {motive : (c : Call) → 0 ≤ c.length.toInt → Prop}
    (tooLong : ∀ (c : Call) (h0 : 0 ≤ c.length.toInt), buffMaxLen < c.length.toInt → motive c h0)
    (write : ∀ pBuff (n : Int32) (h0 : 0 ≤ n.toInt), n.toInt ≤ buffMaxLen → motive (.write pBuff n) h0)
    (read : ∀ pBuff (n : Int32) (h0 : 0 ≤ n.toInt), n.toInt ≤ buffMaxLen → motive (.read pBuff n) h0)
    (c : Call) (h0 : 0 ≤ c.length.toInt) : motive c h0 := by
  by_cases hn : c.length.toInt ≤ buffMaxLen
  · cases c with
    | write pBuff n => exact write pBuff n h0 hn
    | read pBuff n => exact read pBuff n h0 hn
  · exact tooLong c h0 (not_le.mp hn)

/-- The ring a successful first `InitRingBuff` leaves: every pointer was `NULL` before. -/
def startRing (block : Block) (mem : Mem UInt8) : RingBuff :=
  (initRingBuff (some block) ⟨0, 0, 0, 0, mem⟩).2

structure History where
  ring : RingBuff
  written : List UInt8
  consumed : ℕ

namespace History

def start (block : Block) (mem : Mem UInt8) : History := ⟨startRing block mem, [], 0⟩

/-- Only calls that report success count as written or read. -/
def step (h : History) : Call → History
  | .write pBuff n =>
    let r := writeRingBuff h.ring pBuff n
    { h with
      ring := r.ring
      written := if r.ret = vosOk then h.written ++ slice pBuff 0 n.toInt.toNat else h.written }
  | .read pBuff n =>
    let r := readRingBuff h.ring pBuff n
    { h with
      ring := r.ring
      consumed := if r.ret = n then h.consumed + n.toInt.toNat else h.consumed }

def unread (h : History) : ℤ := h.written.length - h.consumed

/-- The cell of a byte of the stream that is written and not yet read. -/
def UnreadCell (h : History) (a : ℤ) : Prop :=
  ∃ k : ℕ, h.consumed ≤ k ∧ k < h.written.length ∧ a = h.ring.pHead + (k : ℤ) % buffMaxLen

def Admissible (h : History) : Call → Prop
  | .write _ n => 0 ≤ n.toInt ∧ n.toInt ≤ buffMaxLen ∧ h.unread + n.toInt ≤ buffMaxLen
  | .read _ n => 0 ≤ n.toInt ∧ n.toInt ≤ buffMaxLen ∧ n.toInt ≤ h.unread

instance (h : History) (c : Call) : Decidable (h.Admissible c) := by
  cases c <;> exact instDecidableAnd

/-- What a queue answers: writes succeed, and a read of `n` delivers the next `n` bytes. -/
def Serves (h : History) : Call → Prop
  | .write pBuff n => (writeRingBuff h.ring pBuff n).ret = vosOk
  | .read pBuff n =>
    let r := readRingBuff h.ring pBuff n
    r.ret = n ∧ slice r.pBuff 0 n.toInt.toNat = (h.written.drop h.consumed).take n.toInt.toNat

def delivered (h : History) : List Call → List UInt8
  | [] => []
  | .write pBuff n :: cs => delivered (h.step (.write pBuff n)) cs
  | .read pBuff n :: cs =>
    slice (readRingBuff h.ring pBuff n).pBuff 0 n.toInt.toNat ++
      delivered (h.step (.read pBuff n)) cs

/-- The cursors stand for the numbers of bytes written and read, modulo the ring size. -/
structure Tracks (h : History) : Prop where
  head_ne : h.ring.pHead ≠ 0
  tail : h.ring.pTail = h.ring.pHead + buffMaxLen
  read : Cursor h.ring.pHead buffMaxLen h.ring.pValidRead h.consumed
  write : Cursor h.ring.pHead buffMaxLen h.ring.pValidWrite h.written.length

/-- The ring holds the unread bytes, and they are no more than fit. -/
structure Queue (h : History) : Prop extends h.Tracks where
  consumed_le : h.consumed ≤ h.written.length
  unread_le : h.written.length ≤ h.consumed + buffMaxLen
  holds : Holds h.ring.mem h.ring.pHead buffMaxLen h.consumed (h.written.drop h.consumed)

theorem Tracks.valid {h : History} (ht : h.Tracks) : h.ring.Valid :=
  ⟨ht.head_ne,ht.tail,ht.read.low,ht.read.high,ht.write.low,ht.write.high⟩

theorem start_queue (block : Block) (mem : Mem UInt8) : (start block mem).Queue := by
  have hb := block.base_pos
  refine ⟨⟨?_,rfl,Cursor.start _ _,Cursor.start _ _⟩,le_rfl,Nat.zero_le _,?_⟩
  · simp only [start,startRing,initRingBuff,if_true]
    omega
  · intro j hj
    simp [start] at hj

section Step

variable {h : History} {pBuff : Mem UInt8} {n : Int32}

theorem step_write_accepted (ht : h.Tracks) (h0 : 0 ≤ n.toInt) (hn : n.toInt ≤ buffMaxLen) :
    h.step (.write pBuff n) =
      { ring := (writeRingBuff h.ring pBuff n).ring
        written := h.written ++ slice pBuff 0 n.toInt.toNat
        consumed := h.consumed } := by
  simp [step,writeRingBuff_accepted ht.valid h0 hn]

private theorem step_read_accepted (ht : h.Tracks) (h0 : 0 ≤ n.toInt) (hn : n.toInt ≤ buffMaxLen) :
    h.step (.read pBuff n) =
      { ring := (readRingBuff h.ring pBuff n).ring
        written := h.written
        consumed := h.consumed + n.toInt.toNat } := by
  simp [step,readRingBuff_accepted ht.valid h0 hn]

theorem step_tooLong (ht : h.Tracks) {c : Call} (hn : buffMaxLen < c.length.toInt) :
    h.step c = h := by
  cases c with
  | write pBuff n =>
    have hcall : writeRingBuff h.ring pBuff n = _ := writeRingBuff_tooLong ht.valid hn
    simp [step,hcall,vosErr,vosOk]
  | read pBuff n =>
    have hcall : readRingBuff h.ring pBuff n = _ := readRingBuff_tooLong ht.valid hn
    have hne : vosErr ≠ n := by
      rintro rfl
      simp [Call.length,vosErr,buffMaxLen] at hn
    simp [step,hcall,hne]

end Step

theorem Tracks.step {h : History} (ht : h.Tracks) (c : Call) (h0 : 0 ≤ c.length.toInt) :
    (h.step c).Tracks := by
  induction c, h0 using Call.byLength with
  | tooLong c h0 hn => rwa [step_tooLong ht hn]
  | write pBuff n h0 hn =>
    rw [step_write_accepted ht h0 hn,writeRingBuff_accepted ht.valid h0 hn]
    refine ⟨ht.head_ne,ht.tail,ht.read,?_⟩
    rw [List.length_append,slice_length]
    exact ht.write.advance (by omega)
  | read pBuff n h0 hn =>
    rw [step_read_accepted ht h0 hn,readRingBuff_accepted ht.valid h0 hn]
    exact ⟨ht.head_ne,ht.tail,ht.read.advance (by omega),ht.write⟩

theorem Queue.step {h : History} (hq : h.Queue) (c : Call) (hc : h.Admissible c) :
    (h.step c).Queue := by
  obtain ⟨ht,hle,hcap,hholds⟩ := hq
  have hlen : (h.written.drop h.consumed).length = h.written.length - h.consumed :=
    List.length_drop
  cases c with
  | write pBuff n =>
    obtain ⟨h0,hn,hroom⟩ := hc
    simp only [unread] at hroom
    refine ⟨ht.step _ h0,?_,?_,?_⟩ <;> rw [step_write_accepted ht h0 hn] <;>
      simp only [List.length_append,slice_length]
    · omega
    · omega
    · rw [writeRingBuff_accepted ht.valid h0 hn,List.drop_append_of_le_length hle]
      apply hholds.put
      · rw [hlen,Nat.add_sub_cancel' hle]
        exact ht.write
      · omega
  | read pBuff n =>
    obtain ⟨h0,hn,hhave⟩ := hc
    simp only [unread] at hhave
    refine ⟨ht.step _ h0,?_,?_,?_⟩ <;> rw [step_read_accepted ht h0 hn]
    · simp only
      omega
    · simp only
      omega
    · rw [readRingBuff_accepted ht.valid h0 hn]
      simpa only [List.drop_drop] using hholds.drop n.toInt.toNat

private theorem Queue.serves {h : History} (hq : h.Queue) (c : Call) (hc : h.Admissible c) :
    h.Serves c := by
  have hv := hq.valid
  cases c with
  | write pBuff n =>
    obtain ⟨h0,hn,-⟩ := hc
    simp only [Serves,writeRingBuff_accepted hv h0 hn]
  | read pBuff n =>
    obtain ⟨h0,hn,hhave⟩ := hc
    simp only [unread] at hhave
    simp only [Serves,readRingBuff_accepted hv h0 hn,true_and]
    exact hq.holds.get hq.read (by rw [List.length_drop]; omega)

private theorem written_prefix (h : History) (calls : List Call) :
    h.written <+: (run step h calls).written := by
  induction calls generalizing h with
  | nil => exact List.prefix_rfl
  | cons c cs ih =>
    refine List.IsPrefix.trans ?_ (ih (h.step c))
    cases c with
    | write pBuff n =>
      simp only [step]
      split
      · exact List.prefix_append _ _
      · exact List.prefix_rfl
    | read pBuff n => exact List.prefix_rfl

private theorem Queue.delivered {h : History} (hq : h.Queue) (calls : List Call)
    (hd : Guarded History.step Admissible h calls) :
    h.consumed ≤ (run History.step h calls).consumed ∧
      h.delivered calls = ((run History.step h calls).written.drop h.consumed).take
        ((run History.step h calls).consumed - h.consumed) := by
  induction calls generalizing h with
  | nil => simp [History.delivered]
  | cons c cs ih =>
    obtain ⟨hc,hrest⟩ := hd
    obtain ⟨hle,hdel⟩ := ih (hq.step c hc) hrest
    have hserve := hq.serves c hc
    have hpre := written_prefix (h.step c) cs
    cases c with
    | write pBuff n =>
      rw [run_cons,History.delivered]
      rw [step_write_accepted hq.toTracks hc.1 hc.2.1] at hle hdel ⊢
      exact ⟨hle,hdel⟩
    | read pBuff n =>
      obtain ⟨h0,hn,hhave⟩ := hc
      simp only [unread] at hhave
      rw [run_cons,History.delivered,hserve.2,hdel]
      rw [step_read_accepted hq.toTracks h0 hn] at *
      generalize run History.step _ cs = last at *
      obtain ⟨more,hmore⟩ := hpre
      simp only at hle hmore ⊢
      refine ⟨by omega,?_⟩
      rw [show last.consumed - h.consumed =
          n.toInt.toNat + (last.consumed - (h.consumed + n.toInt.toNat)) by omega,
        List.take_add,List.drop_drop,← hmore,
        List.drop_append_of_le_length (by omega : h.consumed ≤ h.written.length),
        List.take_append_of_le_length (by rw [List.length_drop]; omega)]

end History

open History

/-- From the state of a successful first `InitRingBuff`, every call of a disciplined sequence is
answered as a queue answers it, and all that is read is the front of all that was written. -/
theorem ringBuff_fifo (block : Block) (mem : Mem UInt8) (calls : List Call)
    (hd : Guarded step Admissible (start block mem) calls) :
    Guarded step Serves (start block mem) calls ∧
      (start block mem).delivered calls =
        (run step (start block mem) calls).written.take
          (run step (start block mem) calls).consumed := by
  have hq := start_queue block mem
  refine ⟨hd.mono (fun h c hq hc => hq.step c hc) (fun h c hq hc => hq.serves c hc) hq,?_⟩
  simpa [start] using (hq.delivered calls hd).2

def sampleBlock : Block := ⟨2147483656, 4096, by decide, by decide⟩

theorem ringBuff_fifo_sample :
    Guarded step Admissible (start sampleBlock fun _ => 0)
        [.write (fun i => i.toNat.toUInt8) 5, .read (fun _ => 0) 2, .read (fun _ => 0) 3] ∧
      Guarded step Serves (start sampleBlock fun _ => 0)
        [.write (fun i => i.toNat.toUInt8) 5, .read (fun _ => 0) 2, .read (fun _ => 0) 3] := by
  have hd : Guarded step Admissible (start sampleBlock fun _ => 0)
      [.write (fun i => i.toNat.toUInt8) 5, .read (fun _ => 0) 2, .read (fun _ => 0) 3] := by decide
  exact ⟨hd,(ringBuff_fifo _ _ _ hd).1⟩

/-- In every state of a disciplined run a write that fits and a read of unread bytes commute:
same results, same bytes, same final ring. -/
theorem ringBuff_write_read_comm (block : Block) (mem : Mem UInt8) (calls : List Call)
    (hd : Guarded step Admissible (start block mem) calls) (b pBuff : Mem UInt8) (m n : Int32)
    (hm : (run step (start block mem) calls).Admissible (.write b m))
    (hn : (run step (start block mem) calls).Admissible (.read pBuff n)) :
    let h := run step (start block mem) calls
    let w := writeRingBuff h.ring b m
    let wr := readRingBuff w.ring pBuff n
    let r := readRingBuff h.ring pBuff n
    let rw := writeRingBuff r.ring b m
    w.ret = rw.ret ∧ wr.ret = r.ret ∧ wr.pBuff = r.pBuff ∧ wr.ring = rw.ring ∧
      slice r.pBuff 0 n.toInt.toNat = (h.written.drop h.consumed).take n.toInt.toNat ∧
      w.ring.pValidRead = h.ring.pValidRead ∧
      (∀ a, h.UnreadCell a → w.ring.mem a = h.ring.mem a) ∧
      r.ring.pValidWrite = h.ring.pValidWrite ∧ r.ring.mem = h.ring.mem := by
  have hq : (run step (start block mem) calls).Queue :=
    hd.invariant (fun h c hq hc => hq.step c hc) (start_queue block mem)
  generalize run step (start block mem) calls = h at *
  have hserve := hq.serves _ hn
  have hw := hq.step _ hm
  have hr := hq.step _ hn
  obtain ⟨hm0,hm1,hroom⟩ := hm
  obtain ⟨hn0,hn1,hhave⟩ := hn
  have hwv := hw.valid
  have hrv := hr.valid
  have hle := hq.consumed_le
  simp only [unread] at hroom hhave
  rw [step_write_accepted hq.toTracks hm0 hm1] at hwv
  rw [step_read_accepted hq.toTracks hn0 hn1] at hrv
  simp only [Serves] at hserve
  simp only [readRingBuff_accepted hwv hn0 hn1,writeRingBuff_accepted hrv hm0 hm1]
  simp only [readRingBuff_accepted hq.valid hn0 hn1,writeRingBuff_accepted hq.valid hm0 hm1]
  simp only [readRingBuff_accepted hq.valid hn0 hn1] at hserve
  refine ⟨trivial,trivial,?_,trivial,hserve.2,trivial,?_,trivial,trivial⟩
  · exact get_put pBuff _ b hq.read hq.write (by omega) (by omega)
  · rintro a ⟨k,hk,hk',rfl⟩
    exact put_behind _ b hq.write (by omega) (by omega)

theorem ringBuff_write_read_comm_sample :
    let h := run step (start sampleBlock fun _ => 0) [.write (fun i => i.toNat.toUInt8) 5]
    h.Admissible (.write (fun _ => 9) 4) ∧ h.Admissible (.read (fun _ => 0) 2) ∧
      (readRingBuff (writeRingBuff h.ring (fun _ => 9) 4).ring (fun _ => 0) 2).ring =
        (writeRingBuff (readRingBuff h.ring (fun _ => 0) 2).ring (fun _ => 9) 4).ring := by
  intro h
  have hw : h.Admissible (.write (fun _ => 9) 4) := by decide
  have hr : h.Admissible (.read (fun _ => 0) 2) := by decide
  exact ⟨hw,hr,(ringBuff_write_read_comm _ _ _ (by decide) _ _ _ _ hw hr).2.2.2.1⟩

end WamrTest
