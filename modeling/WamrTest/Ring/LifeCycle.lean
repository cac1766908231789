import WamrTest.Framework.Run
import WamrTest.Ring.Host

/-!
# The life of the ring's block

The calls of the ring together with the allocator behind them. `InitRingBuff` uses the block
without asking whether it was handed one, `FreeRingBuff` leaves `pHead` on the block it gave
back, and the transfers accept a negative length, so a run is safe exactly when its order of
calls keeps away from these three.
-/

namespace WamrTest

open ByteMemory MachineInt Transition

/-- A call of the life cycle; `answer` is the allocator's reply, should it be asked. -/
inductive LifeCall
  | init (answer : Option Block)
  | free
  | write (pBuff : Mem UInt8) (addLen : Int32)
  | read (pBuff : Mem UInt8) (len : Int32)

structure Access where
  start : ℤ
  size : ℕ

def Access.Inside (a : Access) (live : List Block) : Prop :=
  a.size = 0 ∨ ∃ b ∈ live, b.base ≤ a.start ∧ a.start + a.size ≤ b.base + buffMaxLen

def Copy.access (c : Copy) : Access := ⟨c.ring, c.size⟩

/-- The ring, the blocks that are live and the offset of the last allocating `InitRingBuff`. -/
structure Life where
  ring : RingBuff
  live : List Block
  lastOffset : UInt32

namespace Life

def start (mem : Mem UInt8) : Life := ⟨⟨0, 0, 0, 0, mem⟩, [], 0⟩

def allocated (l : Life) (answer : Option Block) : Option Block :=
  if l.ring.pHead = 0 then answer else none

/-- The offset a call hands to `wasm_runtime_module_free`. -/
def frees (l : Life) : LifeCall → Option UInt32
  | .free => freeRingBuff l.ring l.lastOffset
  | _ => none

def step (l : Life) : LifeCall → Life
  | .init answer =>
    let (offset, ring) := initRingBuff answer l.ring
    match l.allocated answer with
    | none => { l with ring }
    | some b => ⟨ring, b :: l.live, offset⟩
  | .free =>
    match freeRingBuff l.ring l.lastOffset with
    | none => l
    | some offset => { l with live := l.live.filter (·.offset ≠ offset) }
  | .write pBuff n => { l with ring := (writeRingBuff l.ring pBuff n).ring }
  | .read pBuff n => { l with ring := (readRingBuff l.ring pBuff n).ring }

/-- What a call touches through the ring's pointers: `memset` at the new `pHead`, or the
copies of a transfer. -/
def accesses (l : Life) : LifeCall → List Access
  | .init answer => [⟨(initRingBuff answer l.ring).2.pHead, sizeofInt⟩]
  | .free => []
  | .write pBuff n => (writeRingBuff l.ring pBuff n).copies.map Copy.access
  | .read pBuff n => (readRingBuff l.ring pBuff n).copies.map Copy.access

def Rejects (l : Life) : LifeCall → Prop
  | .write pBuff n => (writeRingBuff l.ring pBuff n).ret = vosErr
  | .read pBuff n => (readRingBuff l.ring pBuff n).ret = vosErr
  | _ => True

/-- Only live blocks are touched (the one an `InitRingBuff` allocates is live at its `memset`),
only a live block is freed, and without a live block transfers are rejected. -/
structure Safe (l : Life) (c : LifeCall) : Prop where
  access : ∀ a ∈ l.accesses c, a.Inside (l.step c).live
  free : ∀ offset, l.frees c = some offset → ∃ b ∈ l.live, b.offset = offset
  reject : l.live = [] → l.Rejects c

end Life

/-- Where the ring is in its life, read off the calls alone. -/
inductive Phase
  | uninit
  | live
  | freed

namespace Phase

def next : Phase → LifeCall → Phase
  | .uninit, .init (some _) => .live
  | .live, .free => .freed
  | p, _ => p

/-- The calls a phase stands: an allocation that fails is fatal, a negative length is fatal as
soon as there was a block, and after a free only a length over `BUFF_MAX_LEN` is turned away. -/
def Allows : Phase → LifeCall → Prop
  | .uninit, .init none => False
  | .live, .write _ n | .live, .read _ n => 0 ≤ n.toInt
  | .freed, .init _ | .freed, .free => False
  | .freed, .write _ n | .freed, .read _ n => buffMaxLen < n.toInt
  | _, _ => True

end Phase

namespace Life

inductive In : Phase → Life → Prop
  | uninit {l} (head : l.ring.pHead = 0) (live : l.live = []) : In .uninit l
  | live {l} (valid : l.ring.Valid) (b : Block) (head : l.ring.pHead = b.base)
      (live : l.live = [b]) (offset : l.lastOffset = b.offset) : In .live l
  | freed {l} (valid : l.ring.Valid) (live : l.live = []) : In .freed l

private theorem not_inside_nil {a : Access} (h : 0 < a.size) : ¬ a.Inside [] := by
  rintro (h0 | ⟨b,hb,-⟩)
  · omega
  · exact absurd hb List.not_mem_nil

private theorem not_inside_negative {a : ℤ} {n : Int32} (h : n.toInt < 0) (live : List Block) :
    ¬ Access.Inside ⟨a, sizeT 64 n⟩ live := by
  have hbig := sizeT_of_neg (w := 64) (by decide) h
  rintro (h0 | ⟨b,-,hlow,hhigh⟩)
  · simp only at h0
    omega
  · unfold buffMaxLen at hhigh
    simp only at hlow hhigh
    omega

section Transfers

variable {l : Life} {pBuff : Mem UInt8} {n : Int32}

private theorem write_not_safe (hs : l.ring.Valid) (h : n.toInt < 0) : ¬ l.Safe (.write pBuff n) := by
  intro hsafe
  have hcopies : (writeRingBuff l.ring pBuff n).copies = _ := (writeRingBuff_negative hs h).2
  refine not_inside_negative h _ (hsafe.access ⟨l.ring.pValidWrite, sizeT 64 n⟩ ?_)
  simp [accesses,hcopies,Copy.access]

private theorem read_not_safe (hs : l.ring.Valid) (h : n.toInt < 0) : ¬ l.Safe (.read pBuff n) := by
  intro hsafe
  have hcopies : (readRingBuff l.ring pBuff n).copies = _ := (readRingBuff_negative hs h).2
  refine not_inside_negative h _ (hsafe.access ⟨l.ring.pValidRead, sizeT 64 n⟩ ?_)
  simp [accesses,hcopies,Copy.access]

end Transfers

private theorem safe_uninit {l : Life} {c : LifeCall} (h : In .uninit l) :
    l.Safe c ↔ Phase.Allows .uninit c := by
  obtain ⟨hhead,hlive⟩ := h
  cases c with
  | init answer =>
    cases answer with
    | none =>
      apply iff_of_false _ id
      intro hsafe
      have haccess := hsafe.access _ (List.mem_singleton.mpr rfl)
      simp only [step,allocated,hhead,if_true,hlive] at haccess
      exact not_inside_nil (by simp [sizeofInt]) haccess
    | some b =>
      refine iff_of_true ⟨?_,nofun,fun _ => trivial⟩ trivial
      simp only [accesses,step,allocated,initRingBuff,hhead,if_true,List.mem_singleton,forall_eq]
      exact .inr ⟨b,List.mem_cons_self,le_rfl,by simp [sizeofInt,buffMaxLen]⟩
  | free =>
    refine iff_of_true ⟨fun _ h => absurd h List.not_mem_nil,?_,fun _ => trivial⟩ trivial
    simp [frees,freeRingBuff,hhead]
  | write pBuff n =>
    refine iff_of_true ⟨?_,nofun,fun _ => ?_⟩ trivial
    · simp [accesses,writeRingBuff_null hhead]
    · simp [Rejects,writeRingBuff_null hhead]
  | read pBuff n =>
    refine iff_of_true ⟨?_,nofun,fun _ => ?_⟩ trivial
    · simp [accesses,readRingBuff_null hhead]
    · simp [Rejects,readRingBuff_null hhead]

private theorem safe_live {l : Life} {c : LifeCall} (h : In .live l) : l.Safe c ↔ Phase.Allows .live c := by
  obtain ⟨-,-⟩ | ⟨hs,b,hhead,hlive,hoffset⟩ := h
  have hne : l.live ≠ [] := by simp [hlive]
  have inside {c : Copy} (hc : l.ring.pHead ≤ c.ring ∧ c.ring + c.size ≤ l.ring.pHead + buffMaxLen) :
      c.access.Inside l.live := by
    rw [hhead] at hc
    exact .inr ⟨b,by simp [hlive],hc⟩
  cases c with
  | init answer =>
    refine iff_of_true ⟨?_,nofun,fun _ => trivial⟩ trivial
    simp only [accesses,step,allocated,initRingBuff,if_neg hs.head_ne,List.mem_singleton,forall_eq]
    exact .inr ⟨b,by simp [hlive],hhead.ge,by simp [hhead,sizeofInt,buffMaxLen]⟩
  | free =>
    refine iff_of_true ⟨fun _ h => absurd h List.not_mem_nil,?_,fun _ => trivial⟩ trivial
    simp [frees,freeRingBuff,hs.head_ne,hlive,hoffset]
  | write pBuff n =>
    constructor
    · intro hsafe
      exact not_lt.mp fun h => write_not_safe hs h hsafe
    · intro h0
      refine ⟨?_,nofun,fun h => absurd h hne⟩
      simp only [accesses,List.forall_mem_map]
      intro c hc
      exact inside (writeRingBuff_inside hs h0 hc)
  | read pBuff n =>
    constructor
    · intro hsafe
      exact not_lt.mp fun h => read_not_safe hs h hsafe
    · intro h0
      refine ⟨?_,nofun,fun h => absurd h hne⟩
      simp only [accesses,List.forall_mem_map]
      intro c hc
      exact inside (readRingBuff_inside hs h0 hc)

/-- After a free `pHead` still passes the test against `NULL`, so nothing but a length that is
too long is stopped. -/
theorem safe_freed {l : Life} {c : LifeCall} (h : In .freed l) :
    l.Safe c ↔ Phase.Allows .freed c := by
  obtain - | - | ⟨hs,hlive⟩ := h
  cases c with
  | init answer =>
    apply iff_of_false _ id
    intro hsafe
    have haccess := hsafe.access _ (List.mem_singleton.mpr rfl)
    simp only [step,allocated,if_neg hs.head_ne,hlive] at haccess
    exact not_inside_nil (by simp [sizeofInt]) haccess
  | free =>
    apply iff_of_false _ id
    intro hsafe
    obtain ⟨b,hb,-⟩ := hsafe.free l.lastOffset (by simp [frees,freeRingBuff,hs.head_ne])
    simp [hlive] at hb
  | write pBuff n =>
    constructor
    · intro hsafe
      have h0 : 0 ≤ n.toInt := not_lt.mp fun h => write_not_safe hs h hsafe
      by_contra hn
      have hret : (writeRingBuff l.ring pBuff n).ret = vosErr := hsafe.reject hlive
      rw [writeRingBuff_accepted hs h0 (not_lt.mp hn)] at hret
      exact vosOk_ne_vosErr hret
    · intro hn
      refine ⟨?_,nofun,fun _ => ?_⟩
      · simp [accesses,writeRingBuff_tooLong hs hn]
      · simp [Rejects,writeRingBuff_tooLong hs hn]
  | read pBuff n =>
    constructor
    · intro hsafe
      have h0 : 0 ≤ n.toInt := not_lt.mp fun h => read_not_safe hs h hsafe
      by_contra hn
      have hret : (readRingBuff l.ring pBuff n).ret = vosErr := hsafe.reject hlive
      rw [readRingBuff_accepted hs h0 (not_lt.mp hn)] at hret
      rw [show n = vosErr from hret] at h0
      exact absurd h0 (by decide)
    · intro hn
      refine ⟨?_,nofun,fun _ => ?_⟩
      · simp [accesses,readRingBuff_tooLong hs hn]
      · simp [Rejects,readRingBuff_tooLong hs hn]

private theorem safe_iff {p : Phase} {l : Life} (h : In p l) (c : LifeCall) :
    l.Safe c ↔ p.Allows c := by
  cases p with
  | uninit => exact safe_uninit h
  | live => exact safe_live h
  | freed => exact safe_freed h

theorem In.step {p : Phase} {l : Life} {c : LifeCall} (h : In p l) (hc : p.Allows c) :
    In (p.next c) (l.step c) := by
  cases h with
  | uninit hhead hlive =>
    cases c with
    | init answer =>
      cases answer with
      | none => exact hc.elim
      | some b =>
        have hb := b.base_pos
        refine .live ⟨?_,?_,?_,?_,?_,?_⟩ b ?_ ?_ ?_ <;>
          simp only [Life.step,allocated,initRingBuff,hhead,hlive,if_true] <;> omega
    | free =>
      have hstay : l.step .free = l := by simp [Life.step,freeRingBuff,hhead]
      rw [hstay]
      exact .uninit hhead hlive
    | write pBuff n => exact .uninit (by simp [Life.step,hhead]) hlive
    | read pBuff n => exact .uninit (by simp [Life.step,hhead]) hlive
  | live hs b hhead hlive hoffset =>
    cases c with
    | init answer =>
      simp only [Life.step,allocated,initRingBuff,if_neg hs.head_ne]
      exact .live ⟨hs.head_ne,rfl,le_rfl,by simp,le_rfl,by simp⟩ b hhead hlive hoffset
    | free =>
      simp only [Life.step,freeRingBuff,hs.head_ne,ne_eq,not_false_eq_true,if_true]
      exact .freed hs (by simp [hlive,hoffset])
    | write pBuff n => exact .live (hs.write pBuff hc) b (by simp [Life.step,hhead]) hlive hoffset
    | read pBuff n => exact .live (hs.read pBuff hc) b (by simp [Life.step,hhead]) hlive hoffset
  | freed hs hlive =>
    cases c with
    | init answer => exact hc.elim
    | free => exact hc.elim
    | write pBuff n =>
      exact .freed (by rwa [Life.step,writeRingBuff_tooLong hs hc]) hlive
    | read pBuff n =>
      exact .freed (by rwa [Life.step,readRingBuff_tooLong hs hc]) hlive

end Life

open Life

theorem ringBuff_lifeCycle (mem : Mem UInt8) (calls : List LifeCall) :
    Guarded step Safe (start mem) calls ↔ Guarded Phase.next Phase.Allows .uninit calls := by
  have hok : ∀ l p c, In p l → (Safe l c ↔ Phase.Allows p c) := fun _ _ c h => safe_iff h c
  have hstep : ∀ l p c, In p l → Phase.Allows p c → In (p.next c) (Life.step l c) :=
    fun _ _ _ h hc => h.step hc
  exact guarded_iff_of_simulation hok hstep (.uninit rfl rfl) calls

/-- After a free a one-byte write is accepted, and lands in the block that is gone. -/
theorem ringBuff_use_after_free :
    ¬ Guarded step Safe (start fun _ => 0)
      [.init (some ⟨16, 4096, by decide, by decide⟩), .free, .write (fun _ => 7) 1] := by
  rintro ⟨-,-,hwrite,-⟩
  have hret := hwrite.reject (by decide)
  exact vosOk_ne_vosErr hret

end WamrTest
