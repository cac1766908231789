import WamrTest.Ring.Fifo
import Mathlib.Data.Int.ConditionallyCompleteOrder
import Mathlib.Order.ConditionallyCompleteLattice.Basic

/-!
# Initialising the ring again

`InitRingBuff` puts both cursors back to `pHead` and clears `sizeof(BUFF_MAX_LEN)` bytes of the
ring, which is the size of an `int`. The other cells keep what they held, and a read is not limited
to unread bytes.
-/

namespace WamrTest

open ByteMemory Circular Transition

/-- A call of the ring with a length that is not negative. -/
abbrev Transfer := {c : Call // 0 ≤ c.length.toInt}

def Call.pBuff : Call → Mem UInt8
  | .write pBuff _ => pBuff
  | .read pBuff _ => pBuff

def RingBuff.call (s : RingBuff) : Call → CallResult
  | .write pBuff n => writeRingBuff s pBuff n
  | .read pBuff n => readRingBuff s pBuff n

section Calls

variable {s : RingBuff} {pBuff : Mem UInt8} {n : Int32}

private theorem call_write (hs : s.Valid) (h0 : 0 ≤ n.toInt) (hn : n.toInt ≤ buffMaxLen) :
    s.call (.write pBuff n) =
      ⟨vosOk,
        { s with
          mem := put s.mem s.pHead buffMaxLen s.pValidWrite pBuff n.toInt.toNat
          pValidWrite := advance s.pHead buffMaxLen s.pValidWrite n.toInt.toNat },
        pBuff, transferCopies s.pHead s.pValidWrite n.toInt.toNat⟩ := writeRingBuff_accepted hs h0 hn

private theorem call_read (hs : s.Valid) (h0 : 0 ≤ n.toInt) (hn : n.toInt ≤ buffMaxLen) :
    s.call (.read pBuff n) =
      ⟨n, { s with pValidRead := advance s.pHead buffMaxLen s.pValidRead n.toInt.toNat },
        get pBuff s.mem s.pHead buffMaxLen s.pValidRead n.toInt.toNat,
        if n = 0 then [] else transferCopies s.pHead s.pValidRead n.toInt.toNat⟩ :=
  readRingBuff_accepted hs h0 hn

private theorem call_tooLong {c : Call} (hs : s.Valid) (h : buffMaxLen < c.length.toInt) :
    s.call c = ⟨vosErr, s, c.pBuff, []⟩ := by
  cases c with
  | write pBuff n => exact writeRingBuff_tooLong hs h
  | read pBuff n => exact readRingBuff_tooLong hs h

private theorem call_tooLong_not_touches {c : Call} (hs : s.Valid) (h : buffMaxLen < c.length.toInt) (a : ℤ) :
    ¬ (s.call c).Touches a := by
  rw [call_tooLong hs h]
  intro h
  obtain ⟨copy,hcopy,-⟩ := h
  exact absurd hcopy List.not_mem_nil

end Calls

def answers (s : RingBuff) : List Transfer → List (Int32 × Mem UInt8)
  | [] => []
  | c::cs =>
    let r := s.call c
    (r.ret, r.pBuff) :: answers r.ring cs

/-- A call of a history. An `InitRingBuff` that asks for a block gets this one. -/
inductive PastCall
  | init (block : Block)
  | transfer (c : Transfer)

def PastCall.step (s : RingBuff) : PastCall → RingBuff
  | .init block => (initRingBuff (some block) s).2
  | .transfer c => (s.call c).ring

/-- A history that ends with an `InitRingBuff`. -/
structure Past where
  mem : Mem UInt8
  calls : List PastCall
  last : Block

def Past.ring (p : Past) : RingBuff :=
  run PastCall.step ⟨0, 0, 0, 0, p.mem⟩ (p.calls ++ [.init p.last])

/-- The bytes written and read since the last `InitRingBuff`, counted by the lengths alone. -/
structure Since where
  written : ℕ
  consumed : ℕ

namespace Since

/-- A rejected call does not count. -/
def step (k : Since) (c : Call) : Since :=
  if c.length.toInt ≤ buffMaxLen then
    match c with
    | .write _ n => { k with written := k.written + n.toInt.toNat }
    | .read _ n => { k with consumed := k.consumed + n.toInt.toNat }
  else k

/-- The cell is one of those `memset` cleared, or was written since. -/
def Known (k : Since) (cell : ℕ) : Prop := cell < sizeofInt ∨ cell < k.written

/-- A read that is not rejected finds only known cells. -/
def Covers (k : Since) : Call → Prop
  | .write _ _ => True
  | .read _ n => n.toInt ≤ buffMaxLen →
    ∀ j : ℕ, j < n.toInt.toNat → k.Known ((k.consumed + j) % buffMaxLen)

structure Follows (k : Since) (s : RingBuff) : Prop where
  head_ne : s.pHead ≠ 0
  tail : s.pTail = s.pHead + buffMaxLen
  read : Cursor s.pHead buffMaxLen s.pValidRead k.consumed
  write : Cursor s.pHead buffMaxLen s.pValidWrite k.written

theorem Follows.valid {k : Since} {s : RingBuff} (h : k.Follows s) : s.Valid :=
  ⟨h.head_ne,h.tail,h.read.low,h.read.high,h.write.low,h.write.high⟩

theorem step_tooLong {k : Since} {c : Call} (h : buffMaxLen < c.length.toInt) : k.step c = k :=
  if_neg (not_le.mpr h)

private theorem step_write {k : Since} {n : Int32} (pBuff : Mem UInt8) (h : n.toInt ≤ buffMaxLen) :
    k.step (.write pBuff n) = { k with written := k.written + n.toInt.toNat } := if_pos h

private theorem step_read {k : Since} {n : Int32} (pBuff : Mem UInt8) (h : n.toInt ≤ buffMaxLen) :
    k.step (.read pBuff n) = { k with consumed := k.consumed + n.toInt.toNat } := if_pos h

theorem Follows.step {k : Since} {s : RingBuff} (h : k.Follows s) {c : Call}
    (h0 : 0 ≤ c.length.toInt) : (k.step c).Follows (s.call c).ring := by
  induction c, h0 using Call.byLength with
  | tooLong c h0 hn => rwa [step_tooLong hn,call_tooLong h.valid hn]
  | write pBuff n h0 hn =>
    rw [step_write pBuff hn,call_write h.valid h0 hn]
    exact ⟨h.head_ne,h.tail,h.read,h.write.advance (by omega)⟩
  | read pBuff n h0 hn =>
    rw [step_read pBuff hn,call_read h.valid h0 hn]
    exact ⟨h.head_ne,h.tail,h.read.advance (by omega),h.write⟩

section Cells

variable {k : Since} {cell n : ℕ}

private theorem known_of_touched (hcell : cell < buffMaxLen)
    (h : ((cell : ℤ) - k.written) % buffMaxLen < n) :
    ({ k with written := k.written + n } : Since).Known cell := by
  by_cases hlt : cell < k.written
  · exact .inr (by simp only; omega)
  · rw [Int.emod_eq_of_lt (by omega) (by omega)] at h
    exact .inr (by simp only; omega)

private theorem known_of_untouched (hcell : cell < buffMaxLen)
    (h : (n : ℤ) ≤ ((cell : ℤ) - k.written) % buffMaxLen) :
    ({ k with written := k.written + n } : Since).Known cell ↔ k.Known cell := by
  simp only [Known]
  by_cases hlt : cell < k.written
  · omega
  · rw [Int.emod_eq_of_lt (by omega) (by omega)] at h
    omega

private theorem cell_emod (hcell : cell < buffMaxLen) : (cell : ℤ) % buffMaxLen = cell := by
  apply Int.emod_eq_of_lt (Int.natCast_nonneg cell)
  exact_mod_cast hcell

private theorem Follows.write_index {s : RingBuff} (h : k.Follows s) (hcell : cell < buffMaxLen) :
    (s.pHead + cell - s.pValidWrite) % buffMaxLen = ((cell : ℤ) - k.written) % buffMaxLen := by
  have hindex := h.write.index cell
  rwa [cell_emod hcell] at hindex

/-- What a cell holds after a write: its byte of the write, or what it held before. -/
theorem Follows.put_cell {s : RingBuff} (h : k.Follows s) (pBuff : Mem UInt8)
    (hcell : cell < buffMaxLen) :
    put s.mem s.pHead buffMaxLen s.pValidWrite pBuff n (s.pHead + cell) =
      if ((cell : ℤ) - k.written) % buffMaxLen < n then
        pBuff (((cell : ℤ) - k.written) % buffMaxLen)
      else s.mem (s.pHead + cell) := by
  rw [Circular.put,h.write_index hcell]
  exact if_congr (by omega) rfl rfl

private theorem Follows.get_byte {s : RingBuff} (h : k.Follows s) (pBuff : Mem UInt8) {j : ℕ} (hj : j < n) :
    get pBuff s.mem s.pHead buffMaxLen s.pValidRead n j =
      s.mem (s.pHead + ((k.consumed + j) % buffMaxLen : ℕ)) := by
  rw [get_inside pBuff s.mem (by omega) (by omega),h.read.cell]
  push_cast
  rfl

private theorem cell_lt (p : ℕ) : p % buffMaxLen < buffMaxLen := Nat.mod_lt p (by decide)

end Cells

/-- Two rings with the same contents in the known cells. -/
structure Agree (k : Since) (p q : RingBuff) : Prop where
  left : k.Follows p
  right : k.Follows q
  cells : ∀ cell, cell < buffMaxLen → k.Known cell → p.mem (p.pHead + cell) = q.mem (q.pHead + cell)

/-- Two rings that differ in every other cell. -/
def Differ (k : Since) (p q : RingBuff) : Prop :=
  ∀ cell, cell < buffMaxLen → ¬ k.Known cell → p.mem (p.pHead + cell) ≠ q.mem (q.pHead + cell)

section Step

variable {k : Since} {p q : RingBuff} {c : Call}

theorem Agree.step (h : k.Agree p q) (h0 : 0 ≤ c.length.toInt) :
    (k.step c).Agree (p.call c).ring (q.call c).ring := by
  refine ⟨h.left.step h0,h.right.step h0,?_⟩
  intro cell hcell hknown
  induction c, h0 using Call.byLength with
  | tooLong c h0 hn =>
    rw [step_tooLong hn] at hknown
    rw [call_tooLong h.left.valid hn,call_tooLong h.right.valid hn]
    exact h.cells cell hcell hknown
  | write pBuff n h0 hn =>
    rw [step_write pBuff hn] at hknown
    rw [call_write h.left.valid h0 hn,call_write h.right.valid h0 hn]
    simp only [h.left.put_cell pBuff hcell,h.right.put_cell pBuff hcell]
    split
    · rfl
    · rename_i huntouched
      exact h.cells cell hcell ((known_of_untouched hcell (not_lt.mp huntouched)).mp hknown)
  | read pBuff n h0 hn =>
    rw [step_read pBuff hn] at hknown
    rw [call_read h.left.valid h0 hn,call_read h.right.valid h0 hn]
    exact h.cells cell hcell hknown

theorem Differ.step (h : k.Differ p q) (hp : k.Follows p) (hq : k.Follows q)
    (h0 : 0 ≤ c.length.toInt) : (k.step c).Differ (p.call c).ring (q.call c).ring := by
  intro cell hcell hunknown
  induction c, h0 using Call.byLength with
  | tooLong c h0 hn =>
    rw [step_tooLong hn] at hunknown
    rw [call_tooLong hp.valid hn,call_tooLong hq.valid hn]
    exact h cell hcell hunknown
  | write pBuff n h0 hn =>
    rw [step_write pBuff hn] at hunknown
    have huntouched := not_lt.mp (mt (known_of_touched hcell) hunknown)
    rw [call_write hp.valid h0 hn,call_write hq.valid h0 hn]
    simp only [hp.put_cell pBuff hcell,hq.put_cell pBuff hcell,if_neg (not_lt.mpr huntouched)]
    exact h cell hcell (mt (known_of_untouched hcell huntouched).mpr hunknown)
  | read pBuff n h0 hn =>
    rw [step_read pBuff hn] at hunknown
    rw [call_read hp.valid h0 hn,call_read hq.valid h0 hn]
    exact h cell hcell hunknown

private theorem call_ret (hp : p.Valid) (hq : q.Valid) (h0 : 0 ≤ c.length.toInt) :
    (p.call c).ret = (q.call c).ret := by
  induction c, h0 using Call.byLength with
  | tooLong c h0 hn => rw [call_tooLong hp hn,call_tooLong hq hn]
  | write pBuff n h0 hn => rw [call_write hp h0 hn,call_write hq h0 hn]
  | read pBuff n h0 hn => rw [call_read hp h0 hn,call_read hq h0 hn]

private theorem Agree.call_pBuff (h : k.Agree p q) (h0 : 0 ≤ c.length.toInt) (hc : k.Covers c) :
    (p.call c).pBuff = (q.call c).pBuff := by
  induction c, h0 using Call.byLength with
  | tooLong c h0 hn => rw [call_tooLong h.left.valid hn,call_tooLong h.right.valid hn]
  | write pBuff n h0 hn => rw [call_write h.left.valid h0 hn,call_write h.right.valid h0 hn]
  | read pBuff n h0 hn =>
    simp only [call_read h.left.valid h0 hn,call_read h.right.valid h0 hn]
    funext i
    by_cases hi : 0 ≤ i ∧ i < n.toInt.toNat
    · obtain ⟨j,rfl⟩ := Int.eq_ofNat_of_zero_le hi.1
      have hj : j < n.toInt.toNat := by omega
      rw [h.left.get_byte pBuff hj,h.right.get_byte pBuff hj]
      exact h.cells _ (cell_lt _) (hc hn j hj)
    · rw [get_outside pBuff _ (by omega),get_outside pBuff _ (by omega)]

private theorem Differ.covers (h : k.Differ p q) (hp : k.Follows p) (hq : k.Follows q)
    (h0 : 0 ≤ c.length.toInt) (heq : (p.call c).pBuff = (q.call c).pBuff) : k.Covers c := by
  cases c with
  | write pBuff n => exact trivial
  | read pBuff n =>
    intro hn j hj
    simp only [Call.length] at h0
    rw [call_read hp.valid h0 hn,call_read hq.valid h0 hn] at heq
    by_contra hunknown
    have hbyte := congrFun heq j
    simp only [hp.get_byte pBuff hj,hq.get_byte pBuff hj] at hbyte
    exact h _ (cell_lt _) hunknown hbyte

end Step

/-! The answers of two rings, over a whole sequence of calls. -/

section Answers

variable {k : Since} {p q : RingBuff}

private theorem answers_ret (hp : k.Follows p) (hq : k.Follows q) (calls : List Transfer) :
    (answers p calls).map Prod.fst = (answers q calls).map Prod.fst := by
  induction calls generalizing k p q with
  | nil => rfl
  | cons c cs ih =>
    have hret := call_ret hp.valid hq.valid c.2
    have hrest := ih (hp.step c.2) (hq.step c.2)
    simp only [answers,List.map_cons,hret,hrest]

private theorem Agree.answers_eq (h : k.Agree p q) {calls : List Transfer}
    (hg : Guarded (fun k c => k.step c.1) (fun k c => k.Covers c.1) k calls) :
    answers p calls = answers q calls := by
  induction calls generalizing k p q with
  | nil => rfl
  | cons c cs ih =>
    have hret := call_ret h.left.valid h.right.valid c.2
    have hbuff := h.call_pBuff c.2 hg.1
    have hrest := ih (h.step c.2) hg.2
    simp only [answers,hret,hbuff,hrest]

private theorem Differ.guarded (h : k.Differ p q) (hp : k.Follows p) (hq : k.Follows q)
    {calls : List Transfer} (heq : answers p calls = answers q calls) :
    Guarded (fun k c => k.step c.1) (fun k c => k.Covers c.1) k calls := by
  induction calls generalizing k p q with
  | nil => exact trivial
  | cons c cs ih =>
    obtain ⟨hhead,hrest⟩ := List.cons.inj heq
    have hcovers := h.covers hp hq c.2 (congrArg Prod.snd hhead)
    exact ⟨hcovers,ih (h.step hp hq c.2) (hp.step c.2) (hq.step c.2) hrest⟩

end Answers

end Since

/-- A ring with the addresses that were cleared or written since its last `InitRingBuff`. -/
structure Renewed where
  ring : RingBuff
  fresh : Set ℤ

namespace Renewed

def step (s : Renewed) (c : Call) : Renewed :=
  let r := s.ring.call c
  { ring := r.ring
    fresh := match c with
      | .write _ _ => s.fresh ∪ {a | r.Touches a}
      | .read _ _ => s.fresh }

/-- A read returns no byte from before. -/
def Forgetful (s : Renewed) (c : Call) : Prop :=
  match c with
  | .write _ _ => True
  | .read _ _ => ∀ a, (s.ring.call c).Touches a → a ∈ s.fresh

structure Tells (k : Since) (s : Renewed) : Prop where
  follows : k.Follows s.ring
  fresh : ∀ cell, cell < buffMaxLen → (s.ring.pHead + cell ∈ s.fresh ↔ k.Known cell)

variable {k : Since} {s : Renewed}

private theorem Tells.forgetful_iff (h : Tells k s) {c : Call} (h0 : 0 ≤ c.length.toInt) :
    s.Forgetful c ↔ k.Covers c := by
  cases c with
  | write pBuff n => exact Iff.rfl
  | read pBuff n =>
    simp only [Call.length] at h0
    by_cases hn : n.toInt ≤ buffMaxLen
    · have htouch (a : ℤ) : (readRingBuff s.ring pBuff n).Touches a ↔ _ :=
        readRingBuff_touches h.follows.valid h0 hn a
      constructor
      · intro hread _ j hj
        rw [← h.fresh _ (Since.cell_lt _)]
        apply hread
        rw [RingBuff.call,htouch]
        push_cast
        rw [h.follows.read.index,add_sub_cancel_left,Since.cell_emod (show j < buffMaxLen by omega)]
        exact ⟨cell_mem s.ring.pHead (show 0 < buffMaxLen by decide) _,by omega⟩
      · intro hcovers a ha
        rw [RingBuff.call,htouch] at ha
        have hpos := Int.emod_nonneg (a - s.ring.pValidRead) (show (buffMaxLen : ℤ) ≠ 0 by decide)
        have haddr := h.follows.read.address ha.1.1 ha.1.2
        obtain ⟨j,hj⟩ := Int.eq_ofNat_of_zero_le hpos
        rw [hj] at ha haddr
        rw [← haddr]
        have hknown := hcovers hn j (by omega)
        rw [← h.fresh _ (Since.cell_lt _)] at hknown
        push_cast at hknown
        exact hknown
    · have hno := call_tooLong_not_touches (c := .read pBuff n) h.follows.valid (not_le.mp hn)
      exact iff_of_true (fun a ha => absurd ha (hno a)) (fun h => absurd h hn)

private theorem write_touches_cell (h : k.Follows s.ring) {pBuff : Mem UInt8} {n : Int32} {cell : ℕ}
    (hcell : cell < buffMaxLen) (h0 : 0 ≤ n.toInt) (hn : n.toInt ≤ buffMaxLen) :
    (s.ring.call (.write pBuff n)).Touches (s.ring.pHead + cell) ↔
      ((cell : ℤ) - k.written) % buffMaxLen < n.toInt.toNat := by
  rw [RingBuff.call,writeRingBuff_touches h.valid h0 hn,h.write_index hcell]
  exact and_iff_right ⟨by omega,by omega⟩

theorem Tells.step (h : Tells k s) {c : Call} (h0 : 0 ≤ c.length.toInt) :
    Tells (k.step c) (s.step c) := by
  refine ⟨h.follows.step h0,?_⟩
  intro cell hcell
  cases c with
  | write pBuff n =>
    simp only [Call.length] at h0
    have hhead : (s.step (.write pBuff n)).ring.pHead = s.ring.pHead := writeRingBuff_pHead
    rw [hhead]
    change _ ∈ s.fresh ∨ (s.ring.call (.write pBuff n)).Touches _ ↔ _
    by_cases hn : n.toInt ≤ buffMaxLen
    · rw [write_touches_cell h.follows hcell h0 hn,h.fresh cell hcell,Since.step_write pBuff hn]
      by_cases ht : ((cell : ℤ) - k.written) % buffMaxLen < n.toInt.toNat
      · exact iff_of_true (.inr ht) (Since.known_of_touched hcell ht)
      · rw [or_iff_left ht,Since.known_of_untouched hcell (not_lt.mp ht)]
    · have hno := call_tooLong_not_touches (c := .write pBuff n) h.follows.valid (not_le.mp hn)
      have hstay : k.step (.write pBuff n) = k := Since.step_tooLong (not_le.mp hn)
      rw [or_iff_left (hno _),h.fresh cell hcell,hstay]
  | read pBuff n =>
    have hhead : (s.step (.read pBuff n)).ring.pHead = s.ring.pHead := readRingBuff_pHead
    have hknown : (k.step (.read pBuff n)).Known cell ↔ k.Known cell := by
      unfold Since.step
      split <;> rfl
    rw [hhead,hknown]
    exact h.fresh cell hcell

end Renewed

/-- A sequence of calls whose reads find only cells known by then. -/
def Covered (calls : List Transfer) : Prop :=
  Guarded (fun k c => Since.step k c.1) (fun k c => Since.Covers k c.1) ⟨0, 0⟩ calls

/-- No later read returns a byte the history left in the ring. -/
def Past.Forgets (p : Past) (calls : List Transfer) : Prop :=
  Guarded (fun s c => Renewed.step s c.1) (fun s c => Renewed.Forgetful s c.1)
    ⟨p.ring, Set.Ico p.ring.pHead (p.ring.pHead + sizeofInt)⟩ calls

namespace Past

private theorem ring_eq (p : Past) :
    p.ring = (initRingBuff (some p.last) (run PastCall.step ⟨0, 0, 0, 0, p.mem⟩ p.calls)).2 := by
  simp [Past.ring,run,PastCall.step]

private theorem initRingBuff_mem (answer : Option Block) (s : RingBuff) :
    (initRingBuff answer s).2.mem = memset s.mem (initRingBuff answer s).2.pHead 0 sizeofInt := rfl

/-- Whatever the history, both cursors are at `pHead`. -/
theorem follows (p : Past) : (⟨0, 0⟩ : Since).Follows p.ring := by
  have hb := p.last.base_pos
  rw [ring_eq]
  refine ⟨?_,rfl,Cursor.start _ _,Cursor.start _ _⟩
  simp only [initRingBuff]
  split <;> omega

private theorem cleared (p : Past) {cell : ℕ} (h : cell < sizeofInt) :
    p.ring.mem (p.ring.pHead + cell) = 0 := by
  rw [ring_eq,initRingBuff_mem]
  exact if_pos ⟨by omega,by omega⟩

private theorem agree (p q : Past) : (⟨0, 0⟩ : Since).Agree p.ring q.ring := by
  refine ⟨p.follows,q.follows,?_⟩
  intro cell _ hknown
  have hcell : cell < sizeofInt := hknown.resolve_right (Nat.not_lt_zero cell)
  rw [p.cleared hcell,q.cleared hcell]

private theorem tells (p : Past) : Renewed.Tells ⟨0, 0⟩
    ⟨p.ring, Set.Ico p.ring.pHead (p.ring.pHead + sizeofInt)⟩ := by
  refine ⟨p.follows,?_⟩
  intro cell _
  simp only [Since.Known,Set.mem_Ico]
  omega

private theorem forgets_iff (p : Past) (calls : List Transfer) : p.Forgets calls ↔ Covered calls := by
  apply guarded_iff_of_simulation (R := fun s k => Renewed.Tells k s)
  · exact fun _ _ c h => h.forgetful_iff c.2
  · exact fun _ _ c h _ => h.step c.2
  · exact p.tells

def filledWith (b : UInt8) : Past := ⟨fun _ => b, [], sampleBlock⟩

private theorem filledWith_differ : (⟨0, 0⟩ : Since).Differ (filledWith 0).ring (filledWith 1).ring := by
  intro cell _ hunknown
  have hcell : ¬ cell < sizeofInt := fun h => hunknown (.inl h)
  have hbyte (b : UInt8) : (filledWith b).ring.mem ((filledWith b).ring.pHead + cell) = b := by
    rw [ring_eq,initRingBuff_mem]
    exact if_neg (by omega)
  rw [hbyte,hbyte]
  decide

end Past

/-- After every history that ends with an `InitRingBuff` the ring is empty and the return values
to come are fixed. The bytes to come are the same for all histories, and none of them is left over
from one, if and only if the calls cover their reads: each cell a read that is not rejected finds
is among the first `sizeof(BUFF_MAX_LEN)` ones or was written since. -/
theorem reinit_forgets (calls : List Transfer) :
    (∀ p : Past, p.ring.Valid ∧ p.ring.pValidRead = p.ring.pHead ∧
        p.ring.pValidWrite = p.ring.pHead) ∧
      (∀ p q : Past, (answers p.ring calls).map Prod.fst = (answers q.ring calls).map Prod.fst) ∧
      ((∀ p q : Past, answers p.ring calls = answers q.ring calls ∧ p.Forgets calls) ↔
        Covered calls) := by
  refine ⟨?_,fun p q => Since.answers_ret p.follows q.follows calls,?_⟩
  · intro p
    refine ⟨p.follows.valid,?_⟩
    rw [p.ring_eq]
    exact ⟨rfl,rfl⟩
  · constructor
    · intro h
      have heq := (h (Past.filledWith 0) (Past.filledWith 1)).1
      exact Past.filledWith_differ.guarded (Past.follows _) (Past.follows _) heq
    · intro hcovered p q
      exact ⟨(p.agree q).answers_eq hcovered,(p.forgets_iff calls).mpr hcovered⟩

/-- Eight bytes are written, the ring is initialised again and eight bytes are read: the last four
are bytes of the write, where a ring without a past has zeros. -/
theorem reinit_remembers :
    let past : Past :=
      ⟨fun _ => 0, [.init sampleBlock, .transfer ⟨.write (fun _ => 7) 8, by decide⟩], sampleBlock⟩
    let none : Past := ⟨fun _ => 0, [], sampleBlock⟩
    let calls : List Transfer := [⟨.read (fun _ => 0) 8, by decide⟩]
    answers past.ring calls ≠ answers none.ring calls ∧
      ((answers past.ring calls).map fun a => slice a.2 0 8) = [[0, 0, 0, 0, 7, 7, 7, 7]] := by
  intro past none calls
  have hpast : ((answers past.ring calls).map fun a => slice a.2 0 8) =
      [[0, 0, 0, 0, 7, 7, 7, 7]] := by decide
  have hnone : ((answers none.ring calls).map fun a => slice a.2 0 8) =
      [[0, 0, 0, 0, 0, 0, 0, 0]] := by decide
  refine ⟨?_,hpast⟩
  intro h
  rw [h,hnone] at hpast
  exact absurd hpast (by decide)

end WamrTest
