import WamrTest.Ems.Dump

/-!
# Sessions of the allocator

What holds after every sequence of calls on a heap from `gc_init_with_struct_and_pool`: objects lie
apart in the pool and keep what was written into them, the heap is never found corrupted, and every
byte comes back.
-/

namespace WamrTest.Ems

open Arena ByteMemory Transition

/-- A client's calls on a new heap over the pool, none of which breaks what `Client.Allows` asks. -/
structure Session (mem : Mem UInt8) (structBuf poolBuf poolBufSize : ℤ) (h : Heap) (calls : List Call) : Prop where
  init : gcInitWithStructAndPool mem structBuf poolBuf poolBufSize = some h
  nonnull : 0 < poolBuf
  size : poolBufSize < 2 ^ 30
  allowed : Guarded Client.step Client.Allows (.start h) calls

/-- The pool of a heap stays where it is. -/
structure SamePool (h h' : Heap) : Prop where
  baseAddr : h'.baseAddr = h.baseAddr
  currentSize : h'.currentSize = h.currentSize

section Invariant

variable {c : Client} {bs : List Block} {mem : Mem UInt8} {structBuf poolBuf poolBufSize : ℤ} {h : Heap}
  {calls : List Call}

theorem Served.samePool (hs : Served c bs) (call : Call) (hok : c.Allows call) :
    SamePool c.heap (c.step call).heap := by
  cases call with
  | malloc size =>
    rcases gcAllocVo_spec hs.heap size with ⟨-,hnone⟩ | ⟨h',p,s,t,rest,q,ha⟩
    · simp only [Client.step,hnone]
      exact ⟨rfl,rfl⟩
    · simp only [Client.step,ha.result]
      exact ⟨ha.baseAddr,ha.currentSize⟩
  | free obj =>
    cases hobj : c.live obj with
    | none =>
      rw [hs.free_other hok hobj]
      exact ⟨rfl,rfl⟩
    | some n =>
      obtain ⟨s,hused,-⟩ := hs.live obj n hobj
      obtain ⟨p,q,hsplit,hx⟩ := exists_split hused
      obtain ⟨h',hf⟩ := gcFreeVo_spec (hsplit ▸ hs.heap)
      have hresult := hf.result
      have haddr : c.heap.baseAddr + total p + hmuSize = obj := by omega
      rw [haddr] at hresult
      simp only [Client.step,hresult]
      exact ⟨hf.baseAddr,hf.currentSize⟩
  | store obj i value => exact ⟨rfl,rfl⟩

/-- The pool starts 4 bytes behind its buffer, and loses what is no multiple of 8 bytes at its end. -/
theorem Session.start (hs : Session mem structBuf poolBuf poolBufSize h calls) :
    Consistent h [⟨h.currentSize, true⟩] ∧ h.baseAddr = poolBuf + 4 ∧
      h.currentSize = (poolBufSize - 4) / 8 * 8 := by
  have hinit := hs.init
  have hsize := hs.size
  have hnonnull := hs.nonnull
  have hpad : gcHeadPadding = 4 := rfl
  unfold gcInitWithStructAndPool at hinit
  simp only [hpad] at hinit
  split_ifs at hinit with hstruct halign hmin
  have hmax : (poolBuf + poolBufSize - (poolBuf + 4)) % 2 ^ 32 / 8 * 8 = (poolBufSize - 4) / 8 * 8 := by omega
  rw [hmax] at hinit
  have hh := Option.some.inj hinit
  subst hh
  refine ⟨?_,rfl,rfl⟩
  apply gcInitInternal_consistent
  · omega
  · rw [hmuSize]
    omega
  · rw [normalMaxSize_eq]
    omega
  · exact ⟨by omega,by omega,by omega⟩

/-- What every call of a session finds. -/
theorem Session.served (hs : Session mem structBuf poolBuf poolBufSize h calls) :
    (∃ bs, Served (run Client.step (.start h) calls) bs) ∧
      SamePool h (run Client.step (.start h) calls).heap := by
  have hstep (c : Client) (call : Call) (hc : (∃ bs, Served c bs) ∧ SamePool h c.heap) (hok : c.Allows call) :
      (∃ bs, Served (c.step call) bs) ∧ SamePool h (c.step call).heap := by
    obtain ⟨⟨bs,hserved⟩,hpool⟩ := hc
    have hnext := hserved.samePool call hok
    exact ⟨hserved.step call hok,hnext.baseAddr.trans hpool.baseAddr,hnext.currentSize.trans hpool.currentSize⟩
  exact hs.allowed.invariant hstep ⟨⟨_,.start hs.start.1⟩,rfl,rfl⟩

end Invariant

/-- What a client relies on. -/
structure Reliable (c : Client) (poolBuf poolBufSize : ℤ) : Prop where
  intact : c.heap.isHeapCorrupted = false
  aligned : ∀ o n, c.live o = some n → 8 ∣ o
  inside : ∀ o n, c.live o = some n → poolBuf + 8 ≤ o ∧ o + n.toNat ≤ poolBuf + poolBufSize
  apart : ∀ o n o' n', c.live o = some n → c.live o' = some n' → o < o' → o + n.toNat + 4 ≤ o'
  kept : ∀ z v, c.written z = some v → c.heap.mem z = v

section Results

variable {mem : Mem UInt8} {structBuf poolBuf poolBufSize : ℤ} {h : Heap} {calls : List Call}

theorem Served.align {c : Client} {bs : List Block} (hs : Served c bs) {o : ℤ} {n : UInt32}
    (ho : c.live o = some n) : 8 ∣ o := by
  obtain ⟨s,hused,-⟩ := hs.live o n ho
  have halign := hs.heap.align hused
  rw [sub_add_cancel] at halign
  exact Int.dvd_of_emod_eq_zero halign

theorem Served.apart {c : Client} {bs : List Block} (hs : Served c bs) {o o' : ℤ} {n n' : UInt32}
    (ho : c.live o = some n) (ho' : c.live o' = some n') (hlt : o < o') : o + n.toNat + 4 ≤ o' := by
  obtain ⟨s,hused,hn⟩ := hs.live o n ho
  obtain ⟨s',hused',-⟩ := hs.live o' n' ho'
  have hpos := hs.heap.layout.pos _ (mem_of_place hused')
  rw [hmuSize] at hn
  simp only at hpos
  rcases place_disjoint hs.heap.layout.pos hused hused' with ⟨heq,-⟩ | hover | hover
  · omega
  · simp only at hover
    omega
  · simp only at hover
    omega

theorem Served.reliable {c : Client} {bs : List Block} (hs : Served c bs) (hbase : c.heap.baseAddr = poolBuf + 4)
    (hsize : c.heap.currentSize = (poolBufSize - 4) / 8 * 8) : Reliable c poolBuf poolBufSize := by
  refine ⟨hs.heap.intact,fun o n ho => hs.align ho,?_,fun o n o' n' => hs.apart,?_⟩
  · intro o n ho
    have hbounds := hs.bounds ho
    rw [Heap.endAddr,hbase,hsize,hmuSize] at hbounds
    omega
  · exact fun z v hz => (hs.written z v hz).1

theorem session_reliable (hs : Session mem structBuf poolBuf poolBufSize h calls) :
    Reliable (run Client.step (.start h) calls) poolBuf poolBufSize := by
  obtain ⟨⟨bs,hserved⟩,hpool⟩ := hs.served
  obtain ⟨-,hbase,hsize⟩ := hs.start
  exact hserved.reliable (hpool.baseAddr.trans hbase) (hpool.currentSize.trans hsize)

/-- What `gci_dump` prints of the client's objects. -/
structure Shown (c : Client) : Prop where
  unchanged : (gciDump c.heap).2 = c.heap
  ordered : (gciDump c.heap).1.Pairwise fun l l' => l.offset < l'.offset
  objects : ∀ o, (∃ n, c.live o = some n) ↔ ∃ l ∈ (gciDump c.heap).1, l.inuse = 'V' ∧ l.obj c.heap = o
  room : ∀ l ∈ (gciDump c.heap).1, ∀ n, c.live (l.obj c.heap) = some n → n.toNat ≤ l.objSize
  coalesced : (gciDump c.heap).1.IsChain fun l l' => l.inuse = 'F' → l'.inuse = 'V'
  whole : total (blocks c.heap) = c.heap.currentSize
  free : freeTotal (blocks c.heap) = c.heap.totalFreeSize
  highmark : c.heap.currentSize - c.heap.totalFreeSize ≤ c.heap.highmarkSize ∧
    c.heap.highmarkSize ≤ c.heap.currentSize

private theorem Served.shown {c : Client} {bs : List Block} (hs : Served c bs) : Shown c := by
  obtain ⟨hunchanged,hlines,hinuse⟩ := gciDump_eq hs.heap
  have hmem (x : ℤ) (b : Block) : (x, b) ∈ place c.heap.baseAddr bs ↔
      ∃ l ∈ (gciDump c.heap).1, c.heap.baseAddr + l.offset = x ∧ l.block = b := by
    rw [← hlines,List.mem_map]
    simp
  have hobj (l : DumpLine) : l.obj c.heap = c.heap.baseAddr + l.offset + hmuSize := rfl
  have hused (l : DumpLine) (hl : l ∈ (gciDump c.heap).1) (hV : l.inuse = 'V') :
      UsedAt c.heap.baseAddr bs (c.heap.baseAddr + l.offset) (l.objSize + hmuSize) := by
    refine (hmem _ _).mpr ⟨l,hl,rfl,?_⟩
    rw [DumpLine.block,hV]
    rfl
  have hordered := place_pairwise (a := c.heap.baseAddr) hs.heap.layout.pos
  rw [← hlines,List.pairwise_map] at hordered
  refine ⟨hunchanged,hordered.imp fun hlt => by simpa using hlt,?_,?_,?_,?_,?_,hs.heap.used,hs.heap.highmark⟩
  · intro o
    constructor
    · rintro ⟨n,ho⟩
      obtain ⟨s,hx,-⟩ := hs.live o n ho
      obtain ⟨l,hl,haddr,hblock⟩ := (hmem _ _).mp hx
      refine ⟨l,hl,?_,?_⟩
      · rw [hinuse l hl,hblock]
        rfl
      · rw [hobj,haddr,sub_add_cancel]
    · rintro ⟨l,hl,hV,rfl⟩
      exact hs.used _ _ (hused l hl hV)
  · intro l hl n hn
    obtain ⟨s,hx,hle⟩ := hs.live _ n hn
    rw [hobj,add_sub_cancel_right] at hx
    obtain ⟨l',hl',haddr,hblock⟩ := (hmem _ _).mp hx
    have hsame := place_inj hs.heap.layout.pos ((hmem _ _).mpr ⟨l,hl,rfl,rfl⟩) hx
    have hsize := congrArg Block.size hsame
    simp only [DumpLine.block] at hsize
    omega
  · have hcoalesced := hs.heap.layout.coalesced
    rw [← blocks_eq hs.heap,Coalesced,blocks,List.isChain_map] at hcoalesced
    refine hcoalesced.imp_of_mem_imp ?_
    intro l l' hl hl' himp hF
    have hfree : l.block.free = true := by simp [DumpLine.block,hF]
    rw [hinuse l' hl',himp hfree]
    rfl
  · rw [blocks_eq hs.heap,hs.heap.total]
  · rw [blocks_eq hs.heap,hs.heap.free]

theorem session_shown (hs : Session mem structBuf poolBuf poolBufSize h calls) :
    Shown (run Client.step (.start h) calls) := by
  obtain ⟨⟨bs,hserved⟩,-⟩ := hs.served
  exact hserved.shown

/-- Objects other than `freed` keep all their bytes. -/
def ObjectsKept (c : Client) (freed : Option ℤ) (h' : Heap) : Prop :=
  ∀ o n, c.live o = some n → freed ≠ some o → SameOn o (o + n.toNat) c.heap.mem h'.mem

private theorem Served.objectsKept {c : Client} {bs : List Block} (hs : Served c bs) {freed : Option ℤ} {h' : Heap}
    (hk : Keeps c.heap.baseAddr bs (freed.map (· - hmuSize)) c.heap.mem h'.mem) : ObjectsKept c freed h' := by
  intro o n ho hne
  obtain ⟨s,hused,hn⟩ := hs.live o n ho
  have hapart : freed.map (· - hmuSize) ≠ some (o - hmuSize) := by
    intro heq
    obtain ⟨f,hf,hsub⟩ := Option.map_eq_some_iff.mp heq
    have hfo : f = o := by omega
    exact hne (by rw [hf,hfo])
  have hkeep := hk _ _ hused rfl hapart
  simp only [hmuSize] at hn hkeep
  exact hkeep.mono (by omega) (by omega)

/-- `gc_alloc_vo` cuts a best fit of the free chunks, or fails as all of them are too small. -/
theorem session_malloc (hs : Session mem structBuf poolBuf poolBufSize h calls) (size : UInt32) :
    let c := run Client.step (.start h) calls
    ((∀ b ∈ blocks c.heap, b.free = true → b.size < totSize size) ∧ gcAllocVo c.heap size = (c.heap, none)) ∨
      ∃ h' p s t rest q, Allocated c.heap h' (blocks c.heap) size p s t rest q ∧
        blocks h' = p ++ ⟨t, false⟩::(rest ++ q) ∧ ObjectsKept c none h' := by
  obtain ⟨⟨bs,hserved⟩,-⟩ := hs.served
  simp only [blocks_eq hserved.heap]
  rcases gcAllocVo_spec hserved.heap size with hnone | ⟨h',p,s,t,rest,q,ha⟩
  · exact .inl hnone
  · exact .inr ⟨h',p,s,t,rest,q,ha,blocks_eq ha.consistent,hserved.objectsKept ha.keeps⟩

/-- `gc_free_vo` joins the chunk of the object with its free neighbours. -/
theorem session_free (hs : Session mem structBuf poolBuf poolBufSize h calls) {obj : ℤ} {n : UInt32}
    (hobj : (run Client.step (.start h) calls).live obj = some n) :
    let c := run Client.step (.start h) calls
    ∃ h' p s q, blocks c.heap = p ++ ⟨s, false⟩::q ∧ obj = c.heap.baseAddr + total p + hmuSize ∧
      gcFreeVo c.heap obj = (h', gcSuccess) ∧ blocks h' = release p s q ∧ ObjectsKept c (some obj) h' := by
  obtain ⟨⟨bs,hserved⟩,-⟩ := hs.served
  obtain ⟨s,hused,-⟩ := hserved.live obj n hobj
  obtain ⟨p,q,hsplit,hx⟩ := exists_split hused
  subst hsplit
  obtain ⟨h',hf⟩ := gcFreeVo_spec hserved.heap
  have haddr : obj = (run Client.step (.start h) calls).heap.baseAddr + total p + hmuSize := by omega
  refine ⟨h',p,s,q,blocks_eq hserved.heap,haddr,?_,blocks_eq hf.consistent,?_⟩
  · rw [haddr]
    exact hf.result
  · apply hserved.objectsKept
    rw [Option.map_some,hx]
    exact hf.keeps

/-- Once every object is given back, the pool is one free chunk again. -/
theorem session_all_freed (hs : Session mem structBuf poolBuf poolBufSize h calls)
    (hnone : ∀ o, (run Client.step (.start h) calls).live o = none) :
    let c := run Client.step (.start h) calls
    blocks c.heap = [⟨h.currentSize, true⟩] ∧
      ∀ size, (gcAllocVo c.heap size).2 = if totSize size ≤ h.currentSize then some (poolBuf + 8) else none := by
  obtain ⟨⟨bs,hserved⟩,hpool⟩ := hs.served
  obtain ⟨-,hbase,-⟩ := hs.start
  have hfree : ∀ b ∈ bs, b.free = true := by
    intro b hb
    by_contra hne
    obtain ⟨p,q,rfl⟩ := List.append_of_mem hb
    obtain ⟨s,f⟩ := b
    simp only [Bool.not_eq_true] at hne
    subst hne
    obtain ⟨n,hn⟩ := hserved.used _ s (mem_place_middle _ p ⟨s, false⟩ q)
    exact absurd ((hnone _).symm.trans hn) (by simp)
  have htotal := hserved.heap.total
  rw [hpool.currentSize] at htotal
  have hne : bs ≠ [] := by
    rintro rfl
    have hmin := hs.start.1.layout.1.smallest
    rw [total_nil] at htotal
    simp only at hmin
    omega
  have hone := hserved.heap.layout.coalesced.eq_singleton hne hfree
  rw [htotal] at hone
  subst hone
  refine ⟨blocks_eq hserved.heap,?_⟩
  intro size
  rcases gcAllocVo_spec hserved.heap size with ⟨hsmall,hresult⟩ | ⟨h',p,s,t,rest,q,ha⟩
  · rw [hresult,if_neg]
    exact not_le.mpr (hsmall _ List.mem_cons_self rfl)
  · have hsplit := ha.split
    have hp : p = [] ∧ s = h.currentSize := by
      cases p with
      | nil => exact ⟨rfl,(congrArg Block.size (List.cons.inj hsplit).1).symm⟩
      | cons b p => exact absurd (List.cons.inj hsplit).2 (by simp)
    obtain ⟨rfl,rfl⟩ := hp
    have haddr : poolBuf + 4 + 0 + hmuSize = poolBuf + 8 := by
      rw [hmuSize]
      omega
    rw [ha.result,if_pos ha.fits,hpool.baseAddr,hbase,total_nil,haddr]

end Results

def smallHeap : Heap := gcInitInternal (fun _ => 0) (512 + offsetofKfcTreeRoot) 12 248

def smallCalls : List Call := [.malloc 10, .store 16 3 7, .malloc 100, .free 16, .malloc 3]

private theorem smallSession : Session (fun _ => 0) 512 8 256 smallHeap smallCalls :=
  ⟨rfl,by decide,by decide,by decide +kernel⟩

theorem session_reliable_small : Reliable (run Client.step (.start smallHeap) smallCalls) 8 256 :=
  session_reliable smallSession

theorem session_shown_small : Shown (run Client.step (.start smallHeap) smallCalls) := session_shown smallSession

theorem session_malloc_small :
    let c := run Client.step (.start smallHeap) smallCalls
    ((∀ b ∈ blocks c.heap, b.free = true → b.size < totSize 50) ∧ gcAllocVo c.heap 50 = (c.heap, none)) ∨
      ∃ h' p s t rest q, Allocated c.heap h' (blocks c.heap) 50 p s t rest q ∧
        blocks h' = p ++ ⟨t, false⟩::(rest ++ q) ∧ ObjectsKept c none h' := session_malloc smallSession 50

theorem session_free_small :
    let c := run Client.step (.start smallHeap) smallCalls
    ∃ h' p s q, blocks c.heap = p ++ ⟨s, false⟩::q ∧ 16 = c.heap.baseAddr + total p + hmuSize ∧
      gcFreeVo c.heap 16 = (h', gcSuccess) ∧ blocks h' = release p s q ∧ ObjectsKept c (some 16) h' :=
  session_free (n := 3) smallSession (by decide +kernel)

private theorem smallSession_freed : Session (fun _ => 0) 512 8 256 smallHeap [.malloc 10, .free 16] :=
  ⟨rfl,by decide,by decide,by decide +kernel⟩

private theorem live_malloc {c : Client} {size : UInt32} {obj : ℤ} (hobj : (gcAllocVo c.heap size).2 = some obj) :
    (c.step (.malloc size)).live = Function.update c.live obj (some size) := by
  cases hresult : gcAllocVo c.heap size with
  | mk heap ret =>
    rw [hresult] at hobj
    simp only at hobj
    subst hobj
    simp only [Client.step,hresult]

private theorem all_freed_small (o : ℤ) :
    (run Client.step (.start smallHeap) [.malloc 10, .free 16]).live o = none := by
  have hobj : (gcAllocVo (Client.start smallHeap).heap 10).2 = some 16 := by decide +kernel
  change Function.update ((Client.start smallHeap).step (.malloc 10)).live 16 none o = none
  rw [live_malloc hobj]
  by_cases heq : o = 16
  · rw [heq,Function.update_self]
  · rw [Function.update_of_ne heq,Function.update_of_ne heq]
    rfl

theorem session_all_freed_small :
    let c := run Client.step (.start smallHeap) [.malloc 10, .free 16]
    blocks c.heap = [⟨smallHeap.currentSize, true⟩] ∧
      ∀ size, (gcAllocVo c.heap size).2 = if totSize size ≤ smallHeap.currentSize then some (8 + 8) else none :=
  session_all_freed smallSession_freed all_freed_small

end WamrTest.Ems
