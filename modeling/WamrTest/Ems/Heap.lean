import Mathlib.Logic.Function.Basic
import WamrTest.Ems.Hmu
import WamrTest.Framework.LinkedList
import WamrTest.Framework.SearchTree

/-!
# The allocator of the app heap

`gc_alloc_vo` and `gc_free_vo` of the runtime, over the bytes of the pool. Chunks follow each other
from `base_addr` on, each behind its header; a free chunk also holds its size in its last word and
is listed in `kfc_normal_list` by its size, or from 248 bytes on in a search tree. The nodes of the
tree lie in the chunks and are written as the source does; where it reads them the tree is looked at
that they make up, and `Ems.Nodes` shows that they do.
-/

namespace WamrTest.Ems

open ByteMemory SearchTree

/-- `sizeof(hmu_t)`. -/
def hmuSize : ℤ := 4

def gcHeadPadding : ℤ := 4

def hmuNormalNodeCnt : ℕ := 32

def hmuFcNormalMaxSize : ℤ := (hmuNormalNodeCnt - 1) * 8

def gcAlign8 (s : ℤ) : ℤ := (s + 7) % 2 ^ 32 / 8 * 8

def gcSmallestSize : ℤ := gcAlign8 (hmuSize + 8)

def gcSuccess : ℤ := 0

def gcError : ℤ := -1

abbrev KfcTree := KeyTree ℤ ℤ

/-- `gc_heap_t`; `kfcTreeRoot` is the address of `kfc_tree_root`, and `kfcTree` hangs from its right
child, the root being smaller than any chunk that comes into the tree. -/
structure Heap where
  baseAddr : ℤ
  currentSize : ℤ
  mem : Mem UInt8
  kfcNormalList : ℕ → Option ℤ
  kfcTreeRoot : ℤ
  kfcTree : KfcTree
  isHeapCorrupted : Bool
  highmarkSize : ℤ
  totalFreeSize : ℤ

namespace Heap

def header (h : Heap) (hmu : ℤ) : BitVec 32 := load32 h.mem hmu

def setHeader (h : Heap) (hmu : ℤ) (f : BitVec 32 → BitVec 32) : Heap :=
  { h with mem := store32 h.mem hmu (f (h.header hmu)) }

def corrupted (h : Heap) : Heap := { h with isHeapCorrupted := true }

def endAddr (h : Heap) : ℤ := h.baseAddr + h.currentSize

def HmuIsInHeap (h : Heap) (hmu : ℤ) : Prop := h.baseAddr ≤ hmu ∧ hmu < h.endAddr

instance (h : Heap) (hmu : ℤ) : Decidable (h.HmuIsInHeap hmu) :=
  inferInstanceAs (Decidable (h.baseAddr ≤ hmu ∧ hmu < h.endAddr))

end Heap

def getHmuNormalNodeNext (m : Mem UInt8) (node : ℤ) : Option ℤ :=
  let nextOffset := (load32 m (node + 4)).toInt
  if nextOffset = 0 then none else some (node + nextOffset)

def setHmuNormalNodeNext (m : Mem UInt8) (node : ℤ) : Option ℤ → Mem UInt8
  | some next => store32 m (node + 4) (BitVec.ofInt 32 (next - node))
  | none => store32 m (node + 4) 0#32

/-- A pointer as it is stored; `none` is `NULL`. -/
def pointer : Option ℤ → BitVec 64
  | none => 0#64
  | some a => BitVec.ofInt 64 a

section Nodes

variable (m : Mem UInt8) (node : ℤ)

def setSize (size : ℤ) : Mem UInt8 := store32 m (node + 4) (BitVec.ofInt 32 size)

def setLeft (p : Option ℤ) : Mem UInt8 := store64 m (node + 8) (pointer p)

def setRight (p : Option ℤ) : Mem UInt8 := store64 m (node + 16) (pointer p)

def setParent (p : Option ℤ) : Mem UInt8 := store64 m (node + 24) (pointer p)

def clearLinks : Mem UInt8 := setLeft (setRight (setParent m node none) node none) node none

/-- `if (child) child->parent = parent` -/
def adopt (parent : ℤ) : Option ℤ → Mem UInt8
  | none => m
  | some child => setParent m child (some parent)

end Nodes

/-- Where the pointer to a node is kept: in `kfc_tree_root`, which lies outside the pool and of which
`kfcTree` tells the right child, or in another node. -/
inductive Slot
  | root
  | left (parent : ℤ)
  | right (parent : ℤ)

def Slot.set (m : Mem UInt8) (p : Option ℤ) : Slot → Mem UInt8
  | .root => m
  | .left parent => setLeft m parent p
  | .right parent => setRight m parent p

section Tree

variable (h : Heap)

def Slot.parent : Slot → ℤ
  | .root => h.kfcTreeRoot
  | .left parent => parent
  | .right parent => parent

def Slot.InHeap : Slot → Prop
  | .root => True
  | .left parent => h.HmuIsInHeap parent
  | .right parent => h.HmuIsInHeap parent

instance (slot : Slot) : Decidable (slot.InHeap h) := by
  cases slot <;> unfold Slot.InHeap <;> infer_instance

def TopInHeap (t : KfcTree) : Prop := ∀ a, t.top = some a → h.HmuIsInHeap a

instance (t : KfcTree) : Decidable (TopInHeap h t) :=
  match t with
  | .nil => isTrue nofun
  | .node _ a _ _ => decidable_of_iff (h.HmuIsInHeap a) (by simp [TopInHeap,KeyTree.top])

/-- The first two cases of `remove_tree_node`: its only child, or none, takes the place of `p`. -/
def moveUp (slot : Slot) (p : ℤ) (m : Mem UInt8) (child : KfcTree) : Mem UInt8 × Option KfcTree :=
  let m := slot.set m child.top
  if TopInHeap h child then (clearLinks (adopt m (slot.parent h) child.top) p, some child) else (m, none)

/-- The predecessor of a node, the last one of its left subtree, is removed from that. -/
def removePredecessor : Slot → Mem UInt8 → KfcTree → Mem UInt8 × Option (KfcTree × ℤ × ℤ)
  | _, m, .nil => (m, none)
  | slot, m, .node l q s .nil =>
    if ¬ h.HmuIsInHeap q then (m, none)
    else
      let (m, l) := moveUp h slot q m l
      (m, l.map fun l => (l, q, s))
  | _, m, .node l a s (.node rl b sb rr) =>
    if ¬ h.HmuIsInHeap a then (m, none)
    else
      let (m, r) := removePredecessor (.right a) m (.node rl b sb rr)
      (m, r.map fun (r, x) => (.node l a s r, x))

/-- The three cases of `remove_tree_node` on the node `p` with its two subtrees: no left child, no right
child, both. -/
def replaceNode (slot : Slot) (p : ℤ) (m : Mem UInt8) : KfcTree → KfcTree → Mem UInt8 × Option KfcTree
  | .nil, r => moveUp h slot p m r
  | .node ll a s lr, .nil => moveUp h slot p m (.node ll a s lr)
  | .node ll a s lr, .node rl b sb rr =>
    match removePredecessor h (.left p) m (.node ll a s lr) with
    | (m, none) => (m, none)
    | (m, some (l, q, sq)) =>
      let m := setParent (slot.set m (some q)) q (some (slot.parent h))
      let m := setRight (setLeft m q l.top) q (some b)
      if ¬ TopInHeap h l then (m, none)
      else
        let m := adopt m q l.top
        if ¬ h.HmuIsInHeap b then (m, none)
        else (clearLinks (adopt m q (some b)) p, some (.node l q sq (.node rl b sb rr)))

/-- `p->parent`, as the slot that holds `p`, and the subtrees of `p->left` and `p->right`. -/
def locate (p : ℤ) : Slot → KfcTree → Option (Slot × KfcTree × KfcTree)
  | _, .nil => none
  | slot, .node l a _ r =>
    if a = p then some (slot, l, r) else (locate p (.left a) l).or (locate p (.right a) r)

/-- `false` is the failure that marks the heap as corrupted. -/
def removeTreeNode (p : ℤ) : Heap × Bool :=
  match locate p .root h.kfcTree with
  | none => (h.corrupted, false)
  | some (slot, l, r) =>
    if ¬ h.HmuIsInHeap p ∨ ¬ slot.InHeap h then (h.corrupted, false)
    else
      match replaceNode h slot p h.mem l r with
      | (mem, none) => ({ h with mem }.corrupted, false)
      | (mem, some t) => ({ h with mem, kfcTree := h.kfcTree.graft p t }, true)

/-- The descent of `gci_add_fc` to the slot of a new node. -/
def insertTreeNode (hmu size : ℤ) : Slot → KfcTree → Option (KfcTree × Slot)
  | slot, .nil => some (.node .nil hmu size .nil, slot)
  | _, .node l a s r =>
    if ¬ h.HmuIsInHeap a then none
    else if s < size then (insertTreeNode hmu size (.right a) r).map fun (r, slot) => (.node l a s r, slot)
    else (insertTreeNode hmu size (.left a) l).map fun (l, slot) => (.node l a s r, slot)

/-- The search of `alloc_hmu`, `last` being the last node that was large enough. The outer `none`
is a node outside the heap. -/
def findTreeNode (size : ℤ) : KfcTree → Option (ℤ × ℤ) → Option (Option (ℤ × ℤ))
  | .nil, last => some last
  | .node l a s r, last =>
    if ¬ h.HmuIsInHeap a then none
    else if s < size then findTreeNode size r last
    else findTreeNode size l (some (a, s))

end Tree

/-- The loop of `unlink_hmu`. A list without an end, which the loop does not leave, runs out of
fuel. -/
def unlinkNormal (h : Heap) (nodeIdx : ℕ) (hmu : ℤ) : ℕ → Option ℤ → Option ℤ → Heap × Bool
  | 0, _, _ => (h, false)
  | _+1, _, none => (h, true)
  | fuel+1, nodePrev, some node =>
    if ¬ h.HmuIsInHeap node then (h.corrupted, false)
    else
      let nodeNext := getHmuNormalNodeNext h.mem node
      if node = hmu then
        match nodePrev with
        | none => ({ h with kfcNormalList := Function.update h.kfcNormalList nodeIdx nodeNext }, true)
        | some prev => ({ h with mem := setHmuNormalNodeNext h.mem prev nodeNext }, true)
      else unlinkNormal h nodeIdx hmu fuel (some node) nodeNext

def unlinkHmu (h : Heap) (hmu : ℤ) : Heap × Bool :=
  if hmuGetUt (h.header hmu) ≠ hmuFc then (h.corrupted, false)
  else
    let size := hmuGetSize (h.header hmu)
    if size < hmuFcNormalMaxSize then
      let nodeIdx := (size / 8).toNat
      unlinkNormal h nodeIdx hmu (h.currentSize.toNat + 1) none (h.kfcNormalList nodeIdx)
    else removeTreeNode h hmu

def hmuSetFreeSize (h : Heap) (hmu : ℤ) : Heap :=
  let size := hmuGetSize (h.header hmu)
  { h with mem := store32 h.mem (hmu + size - 4) (BitVec.ofInt 32 size) }

def gciAddFc (h : Heap) (hmu size : ℤ) : Heap × Bool :=
  let h := hmuSetFreeSize ((h.setHeader hmu (hmuSetUt hmuFc)).setHeader hmu (hmuSetSize size)) hmu
  if size < hmuFcNormalMaxSize then
    if ¬ h.HmuIsInHeap hmu then (h.corrupted, false)
    else
      let nodeIdx := (size / 8).toNat
      ({ h with
          mem := setHmuNormalNodeNext h.mem hmu (h.kfcNormalList nodeIdx)
          kfcNormalList := Function.update h.kfcNormalList nodeIdx (some hmu) }, true)
  else
    let mem := clearLinks (setSize h.mem hmu size) hmu
    match insertTreeNode h hmu size .root h.kfcTree with
    | none => ({ h with mem }.corrupted, false)
    | some (kfcTree, slot) =>
      ({ h with mem := setParent (slot.set mem (some hmu)) hmu (some (slot.parent h)), kfcTree }, true)

/-- The counters and the header once `size` bytes of the chunk `p` are taken. -/
def takeHmu (h : Heap) (p size : ℤ) : Heap :=
  let totalFreeSize := (h.totalFreeSize - size) % 2 ^ 32
  let used := (h.currentSize - totalFreeSize) % 2 ^ 32
  let highmarkSize := if h.highmarkSize < used then used else h.highmarkSize
  { h with totalFreeSize, highmarkSize }.setHeader p (hmuSetSize size)

/-- What both searches of `alloc_hmu` end with: `size` bytes of the chunk `p` of `whole` bytes are
taken, the rest going back to the free chunks if `split`. -/
def allocIn (h : Heap) (p size whole : ℤ) (split : Bool) : Heap × Option ℤ :=
  if split then
    let rest := p + size
    match gciAddFc h rest (whole - size) with
    | (h, false) => (h, none)
    | (h, true) => (takeHmu (h.setHeader rest hmuMarkPinuse) p size, some p)
  else
    let next := p + whole
    (takeHmu (if h.HmuIsInHeap next then h.setHeader next hmuMarkPinuse else h) p whole, some p)

/-- The first list of chunks of at least `size` bytes that has one. -/
def findNormal (h : Heap) (size : ℤ) : Option (ℕ × ℤ) :=
  let initNodeIdx := (size / 8).toNat
  if size < hmuFcNormalMaxSize then
    (List.range' initNodeIdx (hmuNormalNodeCnt - initNodeIdx)).findSome? fun nodeIdx =>
      (h.kfcNormalList nodeIdx).map fun p => (nodeIdx, p)
  else none

def allocHmu (h : Heap) (size : ℤ) : Heap × Option ℤ :=
  let size := if size < gcSmallestSize then gcSmallestSize else size
  match findNormal h size with
  | some (nodeIdx, p) =>
    if ¬ h.HmuIsInHeap p then (h.corrupted, none)
    else
      let next := getHmuNormalNodeNext h.mem p
      let h := { h with kfcNormalList := Function.update h.kfcNormalList nodeIdx next }
      if (p + hmuSize) % 8 ≠ 0 then (h.corrupted, none)
      else
        allocIn h p size (nodeIdx * 8)
          (nodeIdx ≠ (size / 8).toNat ∧ size + gcSmallestSize ≤ nodeIdx * 8)
  | none =>
    match findTreeNode h size h.kfcTree none with
    | none => (h.corrupted, none)
    | some none => (h, none)
    | some (some (lastTp, lastSize)) =>
      match removeTreeNode h lastTp with
      | (h, false) => (h, none)
      | (h, true) => allocIn h lastTp size lastSize (size + gcSmallestSize ≤ lastSize)

def setVo (h : Heap) (hmu : ℤ) : Heap := (h.setHeader hmu (hmuSetUt hmuVo)).setHeader hmu hmuUnfreeVo

/-- The end of `gc_alloc_vo`: the buffer behind the object is cleared. -/
def finishVo (size totSizeUnaligned : ℤ) : Heap × Option ℤ → Heap × Option ℤ
  | (h, none) => (h, none)
  | (h, some hmu) =>
    let totSize := hmuGetSize (h.header hmu)
    let h := setVo h hmu
    let ret := hmu + hmuSize
    ({ h with mem := memset h.mem (ret + size) 0 (totSize - totSizeUnaligned).toNat }, some ret)

def gcAllocVo (h : Heap) (size : UInt32) : Heap × Option ℤ :=
  let size : ℤ := size.toNat
  let totSizeUnaligned := (hmuSize + size) % 2 ^ 32
  let totSize := gcAlign8 totSizeUnaligned
  if totSize < size then (h, none)
  else if h.isHeapCorrupted then (h, none)
  else finishVo size totSizeUnaligned (allocHmu h totSize)

/-- The chunk before a chunk that is freed joins it if it is free. -/
def joinPrev (h : Heap) (hmu size : ℤ) : Heap × Option (ℤ × ℤ) :=
  if hmuGetPinuse (h.header hmu) then (h, some (hmu, size))
  else
    let prev := hmu - (h.header (hmu - 4)).toInt
    if h.HmuIsInHeap prev ∧ hmuGetUt (h.header prev) = hmuFc then
      let size := size + hmuGetSize (h.header prev)
      match unlinkHmu h prev with
      | (h, true) => (h, some (prev, size))
      | (h, false) => (h, none)
    else (h, some (hmu, size))

def joinNext (h : Heap) (hmu size : ℤ) : Heap × Option ℤ :=
  let next := hmu + size
  if h.HmuIsInHeap next ∧ hmuGetUt (h.header next) = hmuFc then
    let size := size + hmuGetSize (h.header next)
    match unlinkHmu h next with
    | (h, true) => (h, some size)
    | (h, false) => (h, none)
  else (h, some size)

def gcFreeVo (h : Heap) (obj : ℤ) : Heap × ℤ :=
  let hmu := obj - hmuSize
  if obj = 0 then (h, gcSuccess)
  else if h.isHeapCorrupted then (h, gcError)
  else if ¬ h.HmuIsInHeap hmu then (h, gcSuccess)
  else if hmuGetUt (h.header hmu) ≠ hmuVo then (h, gcError)
  else if hmuIsVoFreed (h.header hmu) then (h, gcError)
  else
    let size := hmuGetSize (h.header hmu)
    let h := { h with totalFreeSize := (h.totalFreeSize + size) % 2 ^ 32 }
    match joinPrev h hmu size with
    | (h, none) => (h, gcError)
    | (h, some (hmu, size)) =>
      match joinNext h hmu size with
      | (h, none) => (h, gcError)
      | (h, some size) =>
        match gciAddFc h hmu size with
        | (h, false) => (h, gcError)
        | (h, true) =>
          let next := hmu + size
          (if h.HmuIsInHeap next then h.setHeader next hmuUnmarkPinuse else h, gcSuccess)

/-- `gc_init_internal` on 64 bits: the pool becomes one free chunk. -/
def gcInitInternal (mem : Mem UInt8) (kfcTreeRoot baseAddr heapMaxSize : ℤ) : Heap :=
  let h : Heap :=
    { baseAddr, currentSize := heapMaxSize
      mem := memset mem baseAddr 0 32
      kfcNormalList := fun _ => none
      kfcTreeRoot
      kfcTree := .node .nil baseAddr heapMaxSize .nil
      isHeapCorrupted := false, highmarkSize := 0, totalFreeSize := heapMaxSize }
  let h := ((h.setHeader baseAddr (hmuSetUt hmuFc)).setHeader baseAddr (hmuSetSize heapMaxSize)).setHeader
    baseAddr hmuMarkPinuse
  { h with mem := setSize (setParent h.mem baseAddr (some kfcTreeRoot)) baseAddr heapMaxSize }

/-- `offsetof(gc_heap_t, kfc_tree_root)`, with a mutex of 40 bytes. -/
def offsetofKfcTreeRoot : ℤ := 320

/-- `gc_init_with_struct_and_pool` for a struct buffer that is large enough. -/
def gcInitWithStructAndPool (mem : Mem UInt8) (structBuf poolBuf poolBufSize : ℤ) : Option Heap :=
  let baseAddr := poolBuf + gcHeadPadding
  if structBuf % 8 ≠ 0 then none
  else if poolBuf % 8 ≠ 0 then none
  else if poolBufSize < 256 then none
  else some (gcInitInternal mem (structBuf + offsetofKfcTreeRoot) baseAddr
    ((poolBuf + poolBufSize - baseAddr) % 2 ^ 32 / 8 * 8))

end WamrTest.Ems
