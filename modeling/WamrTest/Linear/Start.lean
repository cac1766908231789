import WamrTest.Linear.Globals
import WamrTest.Ring.Guest

/-!
# How `main` gets its blocks

`main` asks for an app heap of 8192 bytes, and then for four blocks of `BUFF_MAX_LEN` bytes, which is
8192 too. It gets them only because an app heap in new pages is larger than it was asked for.
-/

namespace WamrTest.Linear

open Arena ByteMemory Ems Transition

/-- `heap_size` of `main`. -/
def mainHeapSize : UInt32 := 8192

def blockSize : UInt32 := 8192

/-- What `InitRingBuff` is handed. -/
def Allocation.block (a : Allocation) : Option WamrTest.Block :=
  match a.nativeAddr with
  | none => none
  | some base => if h : a.offset ≠ 0 ∧ 0 < base then some ⟨a.offset, base, h.1, h.2⟩ else none

def MemoryInstance.mem (m : MemoryInstance) (native : Mem UInt8) : Mem UInt8 :=
  (m.heapHandle.map (·.mem)).getD native

/-- `main` before it runs its test. -/
structure Started where
  memory : MemoryInstance
  ring : RingBuff
  pResult : ℤ
  ringHead : UInt32
  ringTail : UInt32
  outPtr : UInt32
  nativeBuffer : ℤ
  wasmBuffer : UInt32
  nativeBuffer2 : ℤ
  wasmBuffer2 : UInt32

def mainStart (native : Mem UInt8) (m : MemoryInstance) : Started :=
  let a := wasmModuleMalloc none m blockSize
  let ring := (initRingBuff a.block ⟨0, 0, 0, 0, a.memory.mem native⟩).2
  let result := wasmModuleMalloc none (a.memory.write fun _ => ring.mem) blockSize
  let pResult := result.nativeAddr.getD 0
  let buffer := wasmModuleMalloc none result.memory blockSize
  let buffer2 := wasmModuleMalloc none buffer.memory blockSize
  { memory := buffer2.memory
    ring
    pResult
    ringHead := addrNativeToApp result.memory ring.pHead
    ringTail := addrNativeToApp result.memory ring.pTail
    outPtr := addrNativeToApp result.memory pResult
    nativeBuffer := buffer.nativeAddr.getD 0
    wasmBuffer := buffer.offset
    nativeBuffer2 := buffer2.nativeAddr.getD 0
    wasmBuffer2 := buffer2.offset }

/-- The four blocks in the app heap and an empty ring, with the addresses that the guest is told. -/
structure Ready (m : MemoryInstance) (s : Started) : Prop where
  valid : s.ring.Valid
  empty : s.ring.pValidRead = s.ring.pHead ∧ s.ring.pValidWrite = s.ring.pHead
  ring : s.ring.pHead = m.heapData + 8
  result : s.pResult = m.heapData + 8208
  buffers : s.nativeBuffer = m.heapData + 16408 ∧ s.nativeBuffer2 = m.heapData + 24608
  inside : s.nativeBuffer2 + buffMaxLen ≤ m.heapDataEnd
  head : m.memoryData + s.ringHead.toNat = s.ring.pHead
  tail : m.memoryData + s.ringTail.toNat = s.ring.pTail
  out : m.memoryData + s.outPtr.toNat = s.pResult
  wasmBuffer : m.memoryData + s.wasmBuffer.toNat = s.nativeBuffer
  wasmBuffer2 : m.memoryData + s.wasmBuffer2.toNat = s.nativeBuffer2

section Blocks

variable {m : MemoryInstance} {h : Heap} {u : ℤ}

theorem addrNativeToApp_toNat (hs : Sized m) (addr : ℤ) (hl : m.memoryData ≤ addr)
    (hh : addr < m.memoryData + m.memoryDataSize.toNat) : m.memoryData + (addrNativeToApp m addr).toNat = addr := by
  have hend := hs.dataEnd
  have hlt := m.memoryDataSize.toNat_lt
  rw [addrNativeToApp,if_pos ⟨hl,by omega⟩,UInt32.toNat_ofNat']
  omega

private theorem Allocation.block_some {m : MemoryInstance} {offset : UInt32} {base : ℤ} (hne : offset ≠ 0)
    (hpos : 0 < base) :
    Allocation.block ⟨m, none, offset, some base⟩ = some ⟨offset, base, hne, hpos⟩ := dif_pos ⟨hne,hpos⟩

private theorem malloc_withHeap {live : ℤ → Option UInt32} {written : ℤ → Option UInt8} {us : List Arena.Block}
    (hs : Host.Serves ⟨m.withHeap h, live, written⟩ h (us ++ [⟨u, true⟩])) (hused : ∀ b ∈ us, b.free = false)
    (size : UInt32) (hroom : totSize size + 16 ≤ u) :
    ∃ h', ∃ offset : UInt32, wasmModuleMalloc none (m.withHeap h) size =
        ⟨m.withHeap h', none, offset, some (m.heapData + 8 + total us)⟩ ∧
      offset ≠ 0 ∧ m.memoryData + offset.toNat = m.heapData + 8 + total us ∧
      Host.Serves ⟨m.withHeap h', Function.update live (m.heapData + 8 + total us) (some size), written⟩ h'
        (us ++ [⟨totSize size, false⟩] ++ [⟨u - totSize size, true⟩]) := by
  simpa using hs.malloc_end hused hroom

private theorem mainStart_ready (native : Mem UInt8) (hs : (Host.start m).Serves h [⟨u, true⟩])
    (hu : 4 * 8200 + 16 ≤ u)
    (hinside : m.heapDataEnd ≤ m.memoryData + m.memoryDataSize.toNat) : Ready m (mainStart native m) := by
  have htot : totSize blockSize = 8200 := rfl
  have hlow : 0 < m.memoryData ∧ m.memoryData ≤ m.heapData := hs.low
  have hsized : Sized m := hs.sized
  have hend : 8200 * 4 + 20 ≤ m.heapDataEnd - m.heapData := by
    have htotal := hs.served.heap.total
    have hsize : h.currentSize = (m.heapDataEnd - m.heapData - 4) / 8 * 8 := hs.currentSize
    change total [⟨u, true⟩] = h.currentSize at htotal
    simp only [total_cons,total_nil] at htotal
    omega
  have hself : m.withHeap h = m := withHeap_self hs.handle
  -- the ring's block, of which `InitRingBuff` clears the first bytes
  have hstart : Host.Serves ⟨m.withHeap h, fun _ => none, fun _ => none⟩ h ([] ++ [⟨u, true⟩]) := by
    rw [hself]
    exact hs
  obtain ⟨h₁,offset₁,ha₁,hne₁,-,hs₁⟩ := malloc_withHeap hstart (by simp) blockSize (by omega)
  rw [hself] at ha₁
  simp only [total_nil,add_zero,List.nil_append] at ha₁ hs₁
  have hring (mem : Mem UInt8) : (initRingBuff (Allocation.block ⟨m.withHeap h₁, none, offset₁,
      some (m.heapData + 8)⟩) ⟨0, 0, 0, 0, mem⟩).2 = ⟨m.heapData + 8, m.heapData + 8, m.heapData + 8,
        m.heapData + 8 + buffMaxLen, memset mem (m.heapData + 8) 0 sizeofInt⟩ := by
    rw [Allocation.block_some hne₁ (by omega)]
    rfl
  have hlive : Function.update (fun _ : ℤ => (none : Option UInt32)) (m.heapData + 8) (some blockSize)
      (m.heapData + 8) = some blockSize := Function.update_self _ _ _
  have hcleared (z : ℤ) (hz : z < m.heapData + 8 ∨ m.heapData + 8 + blockSize.toNat ≤ z) :
      memset h₁.mem (m.heapData + 8) 0 sizeofInt z = h₁.mem z := by
    have hblock : blockSize.toNat = 8192 := rfl
    rw [memset,sizeofInt,if_neg]
    omega
  have hfill := (hs₁.fill hlive (fun _ => memset h₁.mem (m.heapData + 8) 0 sizeofInt)
    (fun _ => none) hcleared (fun _ _ hnone => absurd hnone (by simp))).1
  obtain ⟨k,hk⟩ : ∃ k : Heap, k = { h₁ with mem := memset h₁.mem (m.heapData + 8) 0 sizeofInt } := ⟨_,rfl⟩
  have hwrite : (m.withHeap h₁).write (fun _ => memset h₁.mem (m.heapData + 8) 0 sizeofInt) = m.withHeap k := by
    rw [hk,write_withHeap]
  simp only [hwrite,← hk] at hfill
  -- the other blocks, one behind the other
  obtain ⟨h₂,offset₂,ha₂,hne₂,hoff₂,hs₂⟩ := malloc_withHeap hfill (by simp) blockSize (by omega)
  obtain ⟨h₃,offset₃,ha₃,hne₃,hoff₃,hs₃⟩ := malloc_withHeap hs₂ (by simp) blockSize (by omega)
  obtain ⟨h₄,offset₄,ha₄,hne₄,hoff₄,hs₄⟩ := malloc_withHeap hs₃ (by simp) blockSize (by omega)
  simp only [total_cons,total_nil,total_append,htot] at ha₂ ha₃ ha₄ hoff₂ hoff₃ hoff₄
  have hmem : MemoryInstance.mem (m.withHeap h₁) native = h₁.mem := rfl
  unfold mainStart
  simp only [ha₁,hring,hmem,hwrite,ha₂,ha₃,ha₄,Option.getD_some]
  have htold (k : Heap) {addr : ℤ} (hl : m.memoryData ≤ addr) (hh : addr < m.heapDataEnd) :
      m.memoryData + (addrNativeToApp (m.withHeap k) addr).toNat = addr :=
    addrNativeToApp_toNat hsized _ hl (by omega)
  have hbuff : (buffMaxLen : ℤ) = 8192 := rfl
  constructor
  · constructor
    · change m.heapData + 8 ≠ 0
      omega
    · rfl
    · exact le_rfl
    · change m.heapData + 8 ≤ m.heapData + 8 + (buffMaxLen : ℤ)
      omega
    · exact le_rfl
    · change m.heapData + 8 ≤ m.heapData + 8 + (buffMaxLen : ℤ)
      omega
  · exact ⟨rfl,rfl⟩
  · rfl
  · simp only
    omega
  · simp only
    omega
  · simp only
    omega
  · exact htold h₂ (by omega) (by omega)
  · exact htold h₂ (by omega) (by omega)
  · exact htold h₂ (by omega) (by omega)
  · simp only
    omega
  · simp only
    omega

end Blocks

section Main

variable {os : Os} {module : Module} {memory : WASMMemory} {m : MemoryInstance} {heapBase : Option UInt32}

/-- The module does not export both functions to allocate and free memory. -/
def Module.UsesAppHeap (module : Module) : Prop :=
  module.mallocFunction = uint32Max ∨ module.freeFunction = uint32Max

theorem Module.UsesAppHeap.size (h : module.UsesAppHeap) : module.appHeapSize mainHeapSize = 8192 := by
  have hcheck : checkHeapSize mainHeapSize = 8192 := by decide
  rw [Module.appHeapSize,hcheck,Module.heapSize,if_neg]
  · rfl
  · intro hboth
    rcases h with hmalloc | hfree
    · exact hboth.2.1 hmalloc
    · exact hboth.2.2 hfree

private theorem newPages_size (hplace : heapPlace module memory = .newPages) :
    memory.size = 65536 * memory.initPageCount.toNat := by
  have hn : memory.numBytesPerPage = defaultNumBytesPerPage := by
    unfold heapPlace at hplace
    split at hplace
    next => exact absurd hplace (by simp)
    next hone =>
      split at hplace
      next => exact absurd hplace (by simp)
      next hnone => exact numBytesPerPage_eq hone hnone
  rw [WASMMemory.size,hn,defaultNumBytesPerPage_toNat]

/-- The instance as the guest sees it, for memories that are not larger than those of this program. -/
def MemoryInstance.moduleInst (m : MemoryInstance) (h : m.memoryDataSize.toNat ≤ 2147483648 + 2 * 65536) : ModuleInst :=
  ⟨m.memoryData, m.memoryDataSize.toNat, h⟩

private theorem moduleInst_addrNativeToApp (h : m.memoryDataSize.toNat ≤ 2147483648 + 2 * 65536) (hs : Sized m)
    (addr : ℤ) :
    WamrTest.addrNativeToApp (m.moduleInst h) addr = addrNativeToApp m addr := by
  rw [addrNativeToApp,hs.dataEnd]
  rfl

private theorem newPages_heap (hplace : heapPlace module memory = .newPages) :
    addedPages module memory 8192 = 1 ∧ heapGiven module memory 8192 = 64512 := by
  simp only [addedPages,heapGiven,hplace]
  exact ⟨rfl,rfl⟩

private theorem newPages_instantiate (hg : os.Grants) (hplace : heapPlace module memory = .newPages)
    (huses : module.UsesAppHeap) (hpages : memory.initPageCount.toNat ≤ 65534) :
    ∃ m heapBase, memoryInstantiate os module memory (checkHeapSize mainHeapSize) = .ok (m, heapBase) := by
  obtain ⟨hadded,hgiven⟩ := newPages_heap hplace
  have hbytes := newPages_size hplace
  have hfits : ¬ TooLarge module memory 8192 := by
    rw [tooLarge_iff (by rw [hplace]; simp),hadded]
    omega
  have husable : Usable module memory 8192 := by
    refine ⟨?_,by rw [hgiven]; decide⟩
    simp only [heapStart,hplace]
    omega
  have houtcome := memoryInstantiate_cases hg module memory mainHeapSize
  simp only [huses.size] at houtcome
  rcases houtcome with ⟨hlarge,-⟩ | ⟨-,-,hbad,-⟩ | ⟨-,-,hresult⟩
  · exact absurd hlarge hfits
  · exact absurd husable hbad
  · exact hresult

/-- The heap in the new page, and a memory of whole pages, which needs no rounding. -/
theorem newPages_instantiated (hplace : heapPlace module memory = .newPages) (huses : module.UsesAppHeap)
    (hpages : memory.initPageCount.toNat ≤ 65534)
    (hi : Instantiated os module memory (module.appHeapSize mainHeapSize) m heapBase) :
    m.heapDataEnd - m.heapData = 64512 ∧ m.heapDataEnd ≤ m.memoryData + m.memoryDataSize.toNat := by
  obtain ⟨hadded,hgiven⟩ := newPages_heap hplace
  have hbytes := newPages_size hplace
  have happ := hi.heap (by rw [huses.size]; decide)
  have htotal := happ.total
  have hend := happ.size
  have hinside := happ.inside
  rw [huses.size] at htotal hend
  rw [hgiven] at hend
  simp only [grownSize,hplace,hadded] at htotal
  have hdata : m.memoryDataSize.toNat = m.size := by
    have hdvd : os.pageSize ∣ m.size := by
      have hwhole : m.size = 65536 * (memory.initPageCount.toNat + 1) := by omega
      rw [hwhole]
      exact os.pageSize_max.mul_right _
    rw [hi.dataSize,os.roundUp_of_dvd hdvd]
    omega
  omega

/-- With the app heap in new pages `main` gets its blocks, apart from each other, and the ring that it
hands to the guest is what both sides take it for. The module's data must leave the heap alone. -/
theorem main_ready (hg : os.Grants) (hplace : heapPlace module memory = .newPages) (huses : module.UsesAppHeap)
    (hpages : memory.initPageCount.toNat ≤ 65534) :
    (∃ m heapBase, memoryInstantiate os module memory (checkHeapSize mainHeapSize) = .ok (m, heapBase)) ∧
    ∀ (imports : List GlobalImport) (globals : List Global) (segs : List DataSeg) (globalData : Mem UInt8)
      (inst : Instance),
      wasmInstantiate os module memory mainHeapSize imports globals segs globalData = .ok inst →
      SegmentsApart imports globals.length segs (heapStart module memory)
        (heapStart module memory + heapGiven module memory (module.appHeapSize mainHeapSize)) →
      Ready inst.memory (mainStart os.mem inst.memory) ∧
        (mainStart os.mem inst.memory).ringHead ≠ 0 ∧ (mainStart os.mem inst.memory).ringTail ≠ 0 ∧
        ∀ hsize,
          WamrTest.addrNativeToApp (inst.memory.moduleInst hsize) (mainStart os.mem inst.memory).ring.pHead =
            (mainStart os.mem inst.memory).ringHead ∧
          WamrTest.addrNativeToApp (inst.memory.moduleInst hsize) (mainStart os.mem inst.memory).ring.pTail =
            (mainStart os.mem inst.memory).ringTail := by
  refine ⟨newPages_instantiate hg hplace huses hpages,?_⟩
  intro imports globals segs globalData inst h hapart
  have hheap : 0 < module.appHeapSize mainHeapSize := by
    rw [huses.size]
    decide
  obtain ⟨heapBase,heap,hi,hserves⟩ := instance_serves h hheap hapart
  obtain ⟨hroom,hinside⟩ := newPages_instantiated hplace huses hpages hi
  have hsized := hi.sized
  have hcurrent : heap.currentSize = (inst.memory.heapDataEnd - inst.memory.heapData - 4) / 8 * 8 :=
    hserves.currentSize
  have hlow : 0 < inst.memory.memoryData ∧ inst.memory.memoryData ≤ inst.memory.heapData := hserves.low
  have hready := mainStart_ready os.mem hserves (by omega) hinside
  have hring := hready.ring
  have htail := hready.valid.tail
  have hhead := hready.head
  have htail' := hready.tail
  have hlast := hready.inside
  have hbuffers := hready.buffers
  have hbuff : (buffMaxLen : ℤ) = 8192 := rfl
  have hhead' := addrNativeToApp_toNat hsized (mainStart os.mem inst.memory).ring.pHead (by omega) (by omega)
  have htail'' := addrNativeToApp_toNat hsized (mainStart os.mem inst.memory).ring.pTail (by omega) (by omega)
  have hzero : (0 : UInt32).toNat = 0 := rfl
  refine ⟨hready,?_,?_,?_⟩
  · intro hnull
    rw [hnull] at hhead
    omega
  · intro hnull
    rw [hnull] at htail'
    omega
  · intro hsize
    rw [moduleInst_addrNativeToApp hsize hsized,moduleInst_addrNativeToApp hsize hsized]
    constructor
    · apply UInt32.toNat_inj.mp
      omega
    · apply UInt32.toNat_inj.mp
      omega

/-- A memory that the loader made one page, or none, gets no new pages. -/
theorem shrinkMemory_place (module : Module) (base : Option UInt32) (memory : WASMMemory) :
    heapPlace module (shrinkMemory false base memory) ≠ .newPages := by
  have hone {m : WASMMemory} (heq : m.initPageCount = m.maxPageCount) (h : m.initPageCount = 1 ∨ m.initPageCount = 0) :
      heapPlace module m ≠ .newPages := by
    unfold heapPlace
    rcases h with h | h
    · simp [heq.symm,h]
    · simp [heq.symm,h]
  unfold shrinkMemory
  rw [if_neg (by decide)]
  cases base with
  | none =>
    dsimp only
    split
    · exact hone rfl (.inl rfl)
    · exact hone rfl (.inr rfl)
  | some base =>
    by_cases hbase : (alignUint base 8).toNat ≤ memory.numBytesPerPage.toNat * memory.initPageCount.toNat
    · simp only [if_pos hbase]
      exact hone rfl (.inl rfl)
    · simp only [if_neg hbase]
      split
      · exact hone rfl (.inl rfl)
      · exact hone rfl (.inr rfl)

/-- Anywhere else the heap has the 8192 bytes it was asked for, and not one block fits beside a header. -/
theorem main_no_block (h : memoryInstantiate os module memory (checkHeapSize mainHeapSize) = .ok (m, heapBase))
    (hplace : heapPlace module memory ≠ .newPages) (huses : module.UsesAppHeap) {calls : List HostCall}
    (hok : Guarded Host.step Host.Allows (.start m) calls) (ring : RingBuff) :
    let memory := (run Host.step (.start m) calls).memory
    let a := wasmModuleMalloc none memory blockSize
    a = ⟨memory, none, 0, none⟩ ∧ (ring.pHead = 0 → (initRingBuff a.block ring).2.pHead = 0) := by
  have hsize := huses.size
  have hheap : 0 < module.appHeapSize mainHeapSize := by omega
  have happ := (instantiated h).heap hheap
  have hgiven : heapGiven module memory 8192 = 8192 := by
    unfold heapGiven
    split
    next hnew => exact absurd hnew hplace
    next => rfl
  have hend := happ.size
  rw [hsize,hgiven] at hend
  obtain ⟨heap,hserves⟩ := start_serves h hheap
  obtain ⟨⟨h',bs',hs⟩,hkept⟩ := hserves.run hok
  have hpool := hkept.heapData
  have hpool' := hkept.heapDataEnd
  change _ = m.heapData at hpool
  change _ = m.heapDataEnd at hpool'
  have hcurrent := hs.currentSize
  have htot : totSize blockSize = 8200 := rfl
  have hfail := hs.malloc_large blockSize (by omega)
  simp only
  rw [hfail]
  refine ⟨rfl,?_⟩
  intro hnull
  simp only [initRingBuff,hnull,if_true]
  rfl

end Main

theorem main_ready_app :
    ∃ inst, wasmInstantiate sampleOs appModule appMemory mainHeapSize [] [⟨.i32, true, .const 1024⟩] appData
        (fun _ => 0) = .ok inst ∧
      Ready inst.memory (mainStart sampleOs.mem inst.memory) := by
  have h : wasmInstantiate sampleOs appModule appMemory mainHeapSize [] [⟨.i32, true, .const 1024⟩] appData
      (fun _ => 0) = .ok _ := rfl
  obtain ⟨-,hready⟩ := @main_ready sampleOs appModule appMemory ⟨rfl,rfl,rfl⟩ rfl (.inl rfl)
    (by decide)
  exact ⟨_,h,(hready _ _ _ _ _ h appData_apart).1⟩

def singleMemory : WASMMemory := shrinkMemory false none ⟨65536, 32768, 65536, .inl ⟨rfl, by decide, by decide⟩⟩

def singleInstance : MemoryInstance :=
  Placement.instantiate ⟨2147491840, 1, 1, 2147483648, 8192, none⟩ 65536 2147491840
    (gcInitWithStructAndPool (fun _ => 0) 4096 (65536 + 2147483648) 8192)

theorem main_no_block_single :
    let memory := (run Host.step (.start singleInstance) [.malloc 100, .enlarge true 1]).memory
    let a := wasmModuleMalloc none memory blockSize
    a = ⟨memory, none, 0, none⟩ ∧
      ((0 : ℤ) = 0 → (initRingBuff a.block ⟨0, 0, 0, 0, fun _ => 0⟩).2.pHead = 0) := by
  have h : memoryInstantiate sampleOs appModule singleMemory (checkHeapSize mainHeapSize) =
      .ok (singleInstance, none) := rfl
  exact main_no_block h (shrinkMemory_place _ _ _) (.inl rfl) (by decide +kernel) ⟨0, 0, 0, 0, fun _ => 0⟩

end WamrTest.Linear
