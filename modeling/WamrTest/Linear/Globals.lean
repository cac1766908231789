import WamrTest.Linear.AppHeap
import WamrTest.Framework.Fallible

/-!
# What `wasm_instantiate` fills in

The globals of an instance, the memory with its app heap, the values of the globals and the data
segments, in this order. The order matters: `memory_instantiate` raises `__heap_base` in the global
data, and the initial values are written over it.
-/

namespace WamrTest.Linear

open Arena ByteMemory Ems Transition

inductive ValueType
  | i32
  | i64
  | f32
  | f64
deriving DecidableEq

def wasmValueTypeSize : ValueType → ℕ
  | .i32 | .f32 => 4
  | .i64 | .f64 => 8

def valueBytes (value : UInt64) : Mem UInt8 := fun k => ⟨value.toBitVec.extractLsb' (8 * k.toNat) 8⟩

inductive InitializerExpression
  | getGlobal (globalIndex : ℕ)
  | const (value : UInt64)

structure GlobalImport where
  type : ValueType
  isMutable : Bool
  globalDataLinked : UInt64

structure Global where
  type : ValueType
  isMutable : Bool
  initExpr : InitializerExpression

structure GlobalInstance where
  type : ValueType
  isMutable : Bool
  dataOffset : ℕ
  initialValue : UInt64

/-- The value of an initializer, which may only be that of an imported global that does not change. -/
def initialValue (imports : List GlobalImport) (globalCount : ℕ) : InitializerExpression → Except String UInt64
  | .const value => .ok value
  | .getGlobal globalIndex =>
    if globalIndex ≥ imports.length + globalCount then .error ("unknown global " ++ toString globalIndex)
    else match imports[globalIndex]? with
      | none => .error "constant expression required"
      | some global => if global.isMutable then .error "constant expression required" else .ok global.globalDataLinked

/-- The loop of `globals_instantiate` over the imports. -/
def instantiateImports (dataOffset : ℕ) : List GlobalImport → List GlobalInstance
  | [] => []
  | g::gs => ⟨g.type, g.isMutable, dataOffset, g.globalDataLinked⟩ ::
      instantiateImports (dataOffset + wasmValueTypeSize g.type) gs

/-- The loop of `globals_instantiate` over the module's own globals. -/
def instantiateGlobals (imports : List GlobalImport) (globalCount : ℕ) (dataOffset : ℕ) :
    List Global → Except String (List GlobalInstance)
  | [] => .ok []
  | g::gs => do
    let value ← initialValue imports globalCount g.initExpr
    let rest ← instantiateGlobals imports globalCount (dataOffset + wasmValueTypeSize g.type) gs
    .ok (⟨g.type, g.isMutable, dataOffset, value⟩ :: rest)

def globalsInstantiate (imports : List GlobalImport) (globals : List Global) :
    Except String (List GlobalInstance) := do
  let own ← instantiateGlobals imports globals.length ((imports.map (wasmValueTypeSize ·.type)).sum) globals
  .ok (instantiateImports 0 imports ++ own)

/-- Initialize the global data. -/
def initGlobalData (globalData : Mem UInt8) (addr : ℤ) : List GlobalInstance → Mem UInt8
  | [] => globalData
  | g::gs =>
    initGlobalData (memcpy globalData addr (valueBytes g.initialValue) 0 (wasmValueTypeSize g.type))
      (addr + wasmValueTypeSize g.type) gs

structure DataSeg where
  isPassive : Bool
  baseOffset : InitializerExpression
  data : Mem UInt8
  dataLength : UInt32

def segmentError : String := "data segment does not fit"

def segmentBase (imports : List GlobalImport) (globalCount : ℕ) (seg : DataSeg) : Except String UInt32 :=
  match seg.baseOffset with
  | .const value => .ok value.toUInt32
  | .getGlobal globalIndex => do
    let value ← initialValue imports globalCount (.getGlobal globalIndex)
    match imports[globalIndex]? with
    | none => .error segmentError
    | some global => if global.type = .i32 then .ok value.toUInt32 else .error segmentError

/-- `b_memcpy_s` to an address that is not null. -/
def bMemcpyS (mem : Mem UInt8) (s1 : ℤ) (s1max : UInt32) (s2 : Mem UInt8) (n : UInt32) : Mem UInt8 :=
  if n = 0 then mem
  else if n > s1max then memset mem s1 0 s1max.toNat
  else memcpy mem s1 s2 0 n.toNat

/-- Initialize the memory data with the data segments. -/
def initMemoryData (imports : List GlobalImport) (globalCount : ℕ) (m : MemoryInstance) :
    List DataSeg → Except String MemoryInstance
  | [] => .ok m
  | seg::segs =>
    if seg.isPassive then initMemoryData imports globalCount m segs
    else do
      let baseOffset ← segmentBase imports globalCount seg
      let memorySize := m.numBytesPerPage * m.curPageCount
      if baseOffset > memorySize then .error segmentError
      else if baseOffset + seg.dataLength > memorySize then .error segmentError
      else
        initMemoryData imports globalCount
          (m.write fun mem => bMemcpyS mem (m.memoryData + baseOffset.toNat) (memorySize - baseOffset) seg.data
            seg.dataLength) segs

structure Instance where
  memory : MemoryInstance
  globals : List GlobalInstance
  globalData : Mem UInt8

/-- `wasm_instantiate`, as far as the memory and the globals are concerned. -/
def wasmInstantiate (os : Os) (module : Module) (memory : WASMMemory) (heapSize : UInt32)
    (imports : List GlobalImport) (globals : List Global) (segs : List DataSeg) (globalData : Mem UInt8) :
    Except String Instance := do
  let instances ← globalsInstantiate imports globals
  let (m, heapBase) ← memoryInstantiate os module memory (checkHeapSize heapSize)
  let globalData :=
    match heapBase, instances[module.auxHeapBaseGlobalIndex.toNat]? with
    | some heapBase, some global => store32 globalData global.dataOffset heapBase.toBitVec
    | _, _ => globalData
  let m ← initMemoryData imports globals.length m segs
  .ok ⟨m, instances, initGlobalData globalData 0 instances⟩

section Globals

variable {imports : List GlobalImport} {globals : List Global} {instances : List GlobalInstance}
  {dataOffset globalCount : ℕ}

/-- The globals lie one behind the other. -/
def LaidOut : ℕ → List GlobalInstance → Prop
  | _, [] => True
  | dataOffset, g::gs => g.dataOffset = dataOffset ∧ LaidOut (dataOffset + wasmValueTypeSize g.type) gs

private theorem laidOut_append {gs gs' : List GlobalInstance} (h : LaidOut dataOffset gs)
    (h' : LaidOut (dataOffset + (gs.map (wasmValueTypeSize ·.type)).sum) gs') : LaidOut dataOffset (gs ++ gs') := by
  induction gs generalizing dataOffset with
  | nil => simpa using h'
  | cons g gs ih =>
    rw [List.map_cons,List.sum_cons,← Nat.add_assoc] at h'
    exact ⟨h.1,ih h.2 h'⟩

private theorem instantiateImports_laidOut (dataOffset : ℕ) (imports : List GlobalImport) :
    LaidOut dataOffset (instantiateImports dataOffset imports) ∧
      (instantiateImports dataOffset imports).map (wasmValueTypeSize ·.type) =
        imports.map (wasmValueTypeSize ·.type) := by
  induction imports generalizing dataOffset with
  | nil => exact ⟨trivial,rfl⟩
  | cons g gs ih =>
    obtain ⟨hlaid,hsizes⟩ := ih (dataOffset + wasmValueTypeSize g.type)
    refine ⟨⟨rfl,hlaid⟩,?_⟩
    simp only [instantiateImports,List.map_cons,hsizes]

private theorem instantiateImports_length (dataOffset : ℕ) (imports : List GlobalImport) :
    (instantiateImports dataOffset imports).length = imports.length := by
  induction imports generalizing dataOffset with
  | nil => rfl
  | cons g gs ih => simp only [instantiateImports,List.length_cons,ih]

private theorem instantiateGlobals_laidOut
    (h : instantiateGlobals imports globalCount dataOffset globals = .ok instances) :
    LaidOut dataOffset instances ∧ ∀ (i : ℕ) (g : Global), globals[i]? = some g → ∃ value, ∃ offset : ℕ,
      initialValue imports globalCount g.initExpr = .ok value ∧
        instances[i]? = some ⟨g.type, g.isMutable, offset, value⟩ := by
  induction globals generalizing dataOffset instances with
  | nil =>
    obtain rfl := Except.ok.inj h
    exact ⟨trivial,by simp⟩
  | cons g gs ih =>
    obtain ⟨value,hvalue,h⟩ := Fallible.bind_ok h
    obtain ⟨rest,hrest,h⟩ := Fallible.bind_ok h
    obtain rfl := Except.ok.inj h
    obtain ⟨hlaid,hget⟩ := ih hrest
    refine ⟨⟨rfl,hlaid⟩,?_⟩
    intro i g' hi
    cases i with
    | zero =>
      obtain rfl := Option.some.inj hi
      exact ⟨value,dataOffset,hvalue,rfl⟩
    | succ i => exact hget i g' hi

private theorem initGlobalData_below (globalData : Mem UInt8) {addr z : ℤ} (hz : z < addr)
    (gs : List GlobalInstance) :
    initGlobalData globalData addr gs z = globalData z := by
  induction gs generalizing globalData addr with
  | nil => rfl
  | cons g gs ih =>
    rw [initGlobalData,ih _ (by omega),memcpy_outside _ _ _ _ _ _ (.inl hz)]

/-- Every global ends up with its initial value, whatever was in the global data before. -/
theorem initGlobalData_at {gs : List GlobalInstance} (h : LaidOut dataOffset gs) (globalData : Mem UInt8)
    {g : GlobalInstance} (hg : g ∈ gs) {k : ℕ} (hk : k < wasmValueTypeSize g.type) :
    initGlobalData globalData dataOffset gs (g.dataOffset + k) = valueBytes g.initialValue k := by
  induction gs generalizing globalData dataOffset with
  | nil => exact absurd hg List.not_mem_nil
  | cons g' gs ih =>
    obtain ⟨hoffset,hrest⟩ := h
    rw [initGlobalData]
    rcases List.mem_cons.mp hg with rfl | hg
    · rw [hoffset,initGlobalData_below _ (by omega),memcpy_inside _ _ _ _ _ _ (by omega) (by omega)]
      congr 1
      omega
    · have hnext := ih hrest (memcpy globalData dataOffset (valueBytes g'.initialValue) 0 (wasmValueTypeSize g'.type)) hg
      rw [Nat.cast_add] at hnext
      exact hnext

end Globals

section Segments

variable {imports : List GlobalImport} {globalCount : ℕ} {m m' : MemoryInstance} {segs : List DataSeg}

/-- Every segment that is copied ends before or starts behind some part of the memory. -/
def SegmentsApart (imports : List GlobalImport) (globalCount : ℕ) (segs : List DataSeg) (lo hi : ℕ) : Prop :=
  ∀ seg ∈ segs, seg.isPassive = false → ∀ base, segmentBase imports globalCount seg = .ok base →
    base.toNat + seg.dataLength.toNat ≤ lo ∨ hi ≤ base.toNat

private theorem bMemcpyS_sameOn {a b s1 : ℤ} {s1max n : UInt32} (mem s2 : Mem UInt8)
    (h : (s1 + n.toNat ≤ a ∧ n.toNat ≤ s1max.toNat) ∨ b ≤ s1) : SameOn a b mem (bMemcpyS mem s1 s1max s2 n) := by
  intro z hz hz'
  unfold bMemcpyS
  split
  next => rfl
  next =>
    split
    next hgt =>
      rw [gt_iff_lt,UInt32.lt_iff_toNat_lt] at hgt
      rw [memset,if_neg (by omega)]
    next => rw [memcpy_outside _ _ _ _ _ _ (by omega)]

/-- Segments are copied to where they go, and not a byte further. -/
theorem initMemoryData_write (h : initMemoryData imports globalCount m segs = .ok m') :
    ∃ f : Mem UInt8 → Mem UInt8, m' = m.write f ∧ ∀ lo hi : ℕ, lo < 2 ^ 32 →
      SegmentsApart imports globalCount segs lo hi →
        ∀ mem, SameOn (m.memoryData + lo) (m.memoryData + hi) mem (f mem) := by
  induction segs generalizing m with
  | nil =>
    obtain rfl := Except.ok.inj h
    refine ⟨id,?_,fun lo hi _ _ mem => .refl _ _ mem⟩
    simp only [MemoryInstance.write,id,Option.map_id']
  | cons seg segs ih =>
    have hrest (lo hi : ℕ) (hapart : SegmentsApart imports globalCount (seg::segs) lo hi) :
        SegmentsApart imports globalCount segs lo hi := fun s hs => hapart s (List.mem_cons_of_mem _ hs)
    rw [initMemoryData] at h
    split at h
    next =>
      obtain ⟨f,hf,hsame⟩ := ih h
      exact ⟨f,hf,fun lo hi hlo hapart => hsame lo hi hlo (hrest lo hi hapart)⟩
    next hactive =>
      obtain ⟨base,hbase,h⟩ := Fallible.bind_ok h
      simp only at h
      split at h
      next => exact absurd h (by simp)
      next hin =>
        split at h
        next => exact absurd h (by simp)
        next hend =>
          obtain ⟨f,hf,hsame⟩ := ih h
          simp only [MemoryInstance.write] at hsame
          rw [gt_iff_lt,UInt32.lt_iff_toNat_lt] at hin hend
          rw [UInt32.toNat_add] at hend
          have hroom : (m.numBytesPerPage * m.curPageCount - base).toNat =
              (m.numBytesPerPage * m.curPageCount).toNat - base.toNat :=
            UInt32.toNat_sub_of_le _ _ (UInt32.le_iff_toNat_le.mpr (by omega))
          refine ⟨fun mem => f (bMemcpyS mem (m.memoryData + base.toNat) (m.numBytesPerPage * m.curPageCount - base)
            seg.data seg.dataLength),?_,?_⟩
          · rw [hf]
            simp only [MemoryInstance.write,Option.map_map,Function.comp_def]
          · intro lo hi hlo hapart mem
            have hout := hapart seg List.mem_cons_self (by simpa using hactive) base hbase
            apply (bMemcpyS_sameOn mem seg.data ?_).trans (hsame lo hi hlo (hrest lo hi hapart) _)
            rw [hroom]
            omega

private theorem start_write {heap : Heap} {bs : List Block} (hs : (Host.start m).Serves heap bs)
    {f : Mem UInt8 → Mem UInt8}
    (hsame : SameOn m.heapData m.heapDataEnd heap.mem (f heap.mem)) :
    (Host.start (m.write f)).Serves { heap with mem := f heap.mem } bs := by
  have hhandle : m.heapHandle = some heap := hs.handle
  have hconsistent : Consistent heap bs := hs.served.heap
  have hbase : heap.baseAddr = m.heapData + 4 := hs.baseAddr
  have hsize : heap.currentSize = (m.heapDataEnd - m.heapData - 4) / 8 * 8 := hs.currentSize
  have htotal := hconsistent.total
  have hlayout : Layout (f heap.mem) heap.baseAddr none bs :=
    hconsistent.layout.sameOn (hsame.mono (by omega) (by omega))
  have hkfc : Kfc { heap with mem := f heap.mem } (FreeAt heap.baseAddr bs) := by
    refine Kfc.congr hconsistent.kfc hconsistent.regions.smallest rfl rfl rfl ?_
    intro a t hfree
    have hbounds := place_bounds hconsistent.layout.pos hfree
    simp only at hbounds
    exact hsame.mono (by omega) (by omega)
  constructor
  · simp only [Host.start,MemoryInstance.write,hhandle,Option.map_some]
  · refine ⟨?_,hs.served.used,fun obj n hobj => by simp [Host.start,Host.client] at hobj,
      fun z v hz => by simp [Host.start,Host.client] at hz⟩
    exact ⟨hlayout,htotal,hconsistent.size,hconsistent.positive,hconsistent.aligned,hkfc,hconsistent.intact,
      hconsistent.free,hconsistent.used,hconsistent.highmark⟩
  · exact hbase
  · exact hsize
  · exact hs.low
  · exact hs.high
  · exact ⟨hs.sized.pages,hs.sized.dataEnd,hs.sized.exact⟩

end Segments

section Instances

variable {os : Os} {module : Module} {memory : WASMMemory} {heapSize : UInt32} {imports : List GlobalImport}
  {globals : List Global} {segs : List DataSeg} {globalData : Mem UInt8} {inst : Instance}

private theorem wasmInstantiate_ok
    (h : wasmInstantiate os module memory heapSize imports globals segs globalData = .ok inst) :
    ∃ m heapBase globalData', globalsInstantiate imports globals = .ok inst.globals ∧
      memoryInstantiate os module memory (checkHeapSize heapSize) = .ok (m, heapBase) ∧
      initMemoryData imports globals.length m segs = .ok inst.memory ∧
      inst.globalData = initGlobalData globalData' 0 inst.globals := by
  obtain ⟨instances,hglobals,h⟩ := Fallible.bind_ok h
  obtain ⟨⟨m,heapBase⟩,hm,h⟩ := Fallible.bind_ok h
  obtain ⟨m',hm',h⟩ := Fallible.bind_ok h
  obtain rfl := Except.ok.inj h
  exact ⟨m,heapBase,_,hglobals,hm,hm',rfl⟩

private theorem globalsInstantiate_ok {instances : List GlobalInstance}
    (h : globalsInstantiate imports globals = .ok instances) :
    LaidOut 0 instances ∧ ∀ (i : ℕ) (g : Global), globals[i]? = some g → ∃ value, ∃ offset : ℕ,
      initialValue imports globals.length g.initExpr = .ok value ∧
        instances[imports.length + i]? = some ⟨g.type, g.isMutable, offset, value⟩ := by
  obtain ⟨own,hown,h⟩ := Fallible.bind_ok h
  obtain rfl := Except.ok.inj h
  obtain ⟨hlaid,hsizes⟩ := instantiateImports_laidOut 0 imports
  obtain ⟨hlaid',hget⟩ := instantiateGlobals_laidOut hown
  constructor
  · apply laidOut_append hlaid
    rw [hsizes,zero_add]
    exact hlaid'
  · intro i g hi
    obtain ⟨value,offset,hvalue,hg⟩ := hget i g hi
    refine ⟨value,offset,hvalue,?_⟩
    rw [List.getElem?_append_right (by rw [instantiateImports_length]; omega),instantiateImports_length,
      Nat.add_sub_cancel_left]
    exact hg

private theorem valueBytes_low (value : UInt64) {k : ℕ} (hk : k < 4) :
    valueBytes value k = ⟨value.toUInt32.toBitVec.extractLsb' (8 * k) 8⟩ := by
  rw [valueBytes,Int.toNat_natCast]
  congr 1
  ext i hi
  simp only [BitVec.getElem_extractLsb',UInt64.toBitVec_toUInt32,BitVec.getLsbD_setWidth]
  have hlt : 8 * k + i < 32 := by omega
  simp [hlt]

private theorem load32_of_valueBytes {mem : Mem UInt8} {a : ℤ} {value : UInt64}
    (h : ∀ k : ℕ, k < 4 → mem (a + k) = valueBytes value k) : load32 mem a = value.toUInt32.toBitVec := by
  have hsame : SameOn a (a + 4) (store32 mem a value.toUInt32.toBitVec) mem := by
    intro z hz hz'
    obtain ⟨k,rfl⟩ := Int.le.dest hz
    rw [h k (by omega),valueBytes_low value (by omega),store32_inside _ _ _ (by omega)]
  rw [hsame.load32 le_rfl le_rfl,load32_store32]

/-- What the loader has found out about the global that it takes for `__heap_base`. -/
structure HeapBaseFound (module : Module) (imports : List GlobalImport) (globals : List Global) : Prop where
  own : imports.length ≤ module.auxHeapBaseGlobalIndex.toNat
  global : ∃ value : UInt64, value.toUInt32 = module.auxHeapBase ∧
    globals[module.auxHeapBaseGlobalIndex.toNat - imports.length]? = some ⟨.i32, false, .const value⟩

/-- The initial values are what is written last. -/
theorem globalData_initial
    (h : wasmInstantiate os module memory heapSize imports globals segs globalData = .ok inst)
    {g : GlobalInstance} (hg : g ∈ inst.globals) {k : ℕ} (hk : k < wasmValueTypeSize g.type) :
    inst.globalData (g.dataOffset + k) = valueBytes g.initialValue k := by
  obtain ⟨-,-,globalData',hglobals,-,-,hglobalData⟩ := wasmInstantiate_ok h
  rw [hglobalData]
  exact initGlobalData_at (globalsInstantiate_ok hglobals).1 globalData' hg hk

/-- All globals of an instance have their initial values. So with an app heap before it `__heap_base` is not
what `memory_instantiate` has set it to, but still the address where it has put the app heap. -/
theorem heap_base_lost (h : wasmInstantiate os module memory heapSize imports globals segs globalData = .ok inst) :
    (∀ g ∈ inst.globals, ∀ k : ℕ, k < wasmValueTypeSize g.type →
      inst.globalData (g.dataOffset + k) = valueBytes g.initialValue k) ∧
    (HeapBaseFound module imports globals → 0 < module.appHeapSize heapSize →
      heapPlace module memory = .beforeHeapBase → ∃ g, inst.globals[module.auxHeapBaseGlobalIndex.toNat]? = some g ∧
        inst.memory.memoryData + (load32 inst.globalData g.dataOffset).toNat = inst.memory.heapData) := by
  refine ⟨fun g hg k hk => globalData_initial h hg hk,?_⟩
  intro hfound hheap hplace
  obtain ⟨m,heapBase,-,hglobals,hm,hdata,-⟩ := wasmInstantiate_ok h
  obtain ⟨hown,value,hvalue,hglobal⟩ := hfound
  obtain ⟨value',offset,hconst,hg⟩ := (globalsInstantiate_ok hglobals).2 _ _ hglobal
  obtain rfl := Except.ok.inj hconst
  rw [Nat.add_sub_cancel' hown] at hg
  refine ⟨_,hg,?_⟩
  have hload : load32 inst.globalData offset = value.toUInt32.toBitVec :=
    load32_of_valueBytes fun k hk => globalData_initial h (List.mem_of_getElem? hg) hk
  obtain ⟨f,hwrite,-⟩ := initMemoryData_write hdata
  have hstart := ((instantiated hm).heap hheap).start
  simp only [heapStart,hplace] at hstart
  rw [hwrite]
  change m.memoryData + (load32 inst.globalData offset).toNat = m.heapData
  rw [hload,hvalue,hstart]
  rfl

theorem Instantiated.write {n : ℕ} {m : MemoryInstance} {heapBase : Option UInt32}
    (hi : Instantiated os module memory n m heapBase) (f : Mem UInt8 → Mem UInt8) :
    Instantiated os module memory n (m.write f) heapBase := by
  constructor
  · intro hpos
    obtain ⟨hstart,hsize,htotal,hinside,habove,hbefore⟩ := hi.heap hpos
    exact ⟨hstart,hsize,htotal,hinside,habove,hbefore⟩
  · rw [← hi.handle,MemoryInstance.write,Option.isSome_map]
  · exact hi.kept
  · exact hi.bound
  · exact hi.pages
  · exact hi.growable
  · exact hi.dataSize
  · exact hi.dataEnd

/-- An instance whose data leaves the app heap alone starts with all of the heap free. -/
theorem instance_serves (h : wasmInstantiate os module memory heapSize imports globals segs globalData = .ok inst)
    (hheap : 0 < module.appHeapSize heapSize)
    (hapart : SegmentsApart imports globals.length segs (heapStart module memory)
      (heapStart module memory + heapGiven module memory (module.appHeapSize heapSize))) :
    ∃ heapBase heap, Instantiated os module memory (module.appHeapSize heapSize) inst.memory heapBase ∧
      (Host.start inst.memory).Serves heap [⟨heap.currentSize, true⟩] := by
  obtain ⟨m,heapBase,-,-,hm,hdata,-⟩ := wasmInstantiate_ok h
  obtain ⟨f,hwrite,hsame⟩ := initMemoryData_write hdata
  obtain ⟨heap,hserves⟩ := start_serves hm hheap
  have hi := instantiated hm
  have happ := hi.heap hheap
  have hstart := happ.start
  have hsize := happ.size
  have hinside := happ.inside
  have hbound := hi.bound
  have hgiven := heapGiven_pos module memory hheap
  have hkept := hsame _ _ (by omega) hapart heap.mem
  rw [Nat.cast_add,← add_assoc,← hstart,← hsize] at hkept
  rw [hwrite]
  exact ⟨heapBase,_,hi.write f,start_write hserves hkept⟩

/-- Objects of the app heap stay where they are and keep their bytes, over any sequence of calls in
which the host keeps to its objects, and their offsets and addresses can be told from each other. The
module's data must leave the heap alone. -/
theorem host_reliable (h : wasmInstantiate os module memory heapSize imports globals segs globalData = .ok inst)
    (hheap : 0 < module.appHeapSize heapSize)
    (hapart : SegmentsApart imports globals.length segs (heapStart module memory)
      (heapStart module memory + heapGiven module memory (module.appHeapSize heapSize)))
    {calls : List HostCall} (hok : Guarded Host.step Host.Allows (.start inst.memory) calls) :
    HostReliable os inst.memory (run Host.step (.start inst.memory) calls) := by
  obtain ⟨heapBase,heap,hi,hserves⟩ := instance_serves h hheap hapart
  exact serves_reliable hserves hi hheap hok

end Instances

def heapBaseModule : Module := ⟨uint32Max, uint32Max, 1, 66592⟩

def heapBaseMemory : WASMMemory := ⟨defaultNumBytesPerPage, 2, defaultMaxPages, .inl ⟨rfl, by decide, by decide⟩⟩

def heapBaseGlobals : List Global := [⟨.i64, true, .const 7⟩, ⟨.i32, false, .const 66592⟩]

theorem heap_base_lost_second :
    ∃ inst, wasmInstantiate sampleOs heapBaseModule heapBaseMemory 8192 [] heapBaseGlobals [] (fun _ => 0) = .ok inst ∧
      (∀ g ∈ inst.globals, ∀ k : ℕ, k < wasmValueTypeSize g.type →
        inst.globalData (g.dataOffset + k) = valueBytes g.initialValue k) ∧
      ∃ g, inst.globals[heapBaseModule.auxHeapBaseGlobalIndex.toNat]? = some g ∧
        inst.memory.memoryData + (load32 inst.globalData g.dataOffset).toNat = inst.memory.heapData := by
  have hfound : HeapBaseFound heapBaseModule [] heapBaseGlobals := ⟨by decide,66592,rfl,rfl⟩
  obtain ⟨inst,h⟩ : ∃ inst, wasmInstantiate sampleOs heapBaseModule heapBaseMemory 8192 [] heapBaseGlobals []
      (fun _ => 0) = .ok inst := ⟨_,rfl⟩
  obtain ⟨hvalues,hlost⟩ := heap_base_lost h
  exact ⟨inst,h,hvalues,hlost hfound (by decide) rfl⟩

def hostCalls : List HostCall :=
  [.malloc 10, .store 2147483656 3 7, .dup (fun _ => 5) 100, .enlarge true 1, .free 2147483656, .malloc 3]

def appData : List DataSeg := [⟨false, .const 1024, ofList 0 [104, 105], 2⟩]

theorem appData_apart : SegmentsApart [] 1 appData (heapStart appModule appMemory)
    (heapStart appModule appMemory + heapGiven appModule appMemory (appModule.appHeapSize 8192)) := by
  intro seg hseg _ base hbase
  obtain rfl := List.mem_singleton.mp hseg
  obtain rfl := Except.ok.inj hbase
  exact .inl (by decide)

theorem host_reliable_app :
    ∃ inst, wasmInstantiate sampleOs appModule appMemory 8192 [] [⟨.i32, true, .const 1024⟩] appData
        (fun _ => 0) = .ok inst ∧
      HostReliable sampleOs inst.memory (run Host.step (.start inst.memory) hostCalls) := by
  have h : wasmInstantiate sampleOs appModule appMemory 8192 [] [⟨.i32, true, .const 1024⟩] appData
      (fun _ => 0) = .ok _ := rfl
  exact ⟨_,h,host_reliable h (by decide) appData_apart (by decide +kernel)⟩

end WamrTest.Linear
