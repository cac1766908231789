import WamrTest.Interp.Opcode

/-!
# The operands of an instruction

The handlers of the interpreter read what is behind an opcode, and the search for the end of a block skips
it. Of the instructions that the loader has accepted both reach equally far.
-/

namespace WamrTest.Interp

open Leb128 Loader

/-- What a handler reads behind the opcode; the index of a table is read as a number, but skipped as a
byte. -/
inductive Operand
  | leb (kind : LebKind)
  | bytes (n : ℕ)
  | tableIndex

def fetchOperand (p : List UInt8) : Operand → Option (List UInt8)
  | .leb kind => (readLebAs kind p).map Prod.snd
  | .bytes n => if p.length < n then none else some (p.drop n)
  | .tableIndex => (readLebAs .uint32 p).map Prod.snd

/-- The operands of the opcodes that are no control instructions. -/
def operands (opcode : UInt8) : Option (List Operand) :=
  -- drop, select, drop_64, select_64
  if opcode ∈ [0x1a, 0x1b, 0xc5, 0xc6] then some []
  else if opcode = opCall then some [.leb .uint32]
  else if opcode = opCallIndirect then some [.leb .uint32, .tableIndex]
  -- locals and globals
  else if 0x1d ≤ opcode ∧ opcode ≤ 0x24 then some [.leb .uint32]
  -- the fast opcodes of locals
  else if opcode ∈ [0xc7, 0xc9, 0xca] then some [.bytes 1]
  -- loads and stores
  else if 0x28 ≤ opcode ∧ opcode ≤ 0x3e then some [.leb .uint32, .leb .uint32]
  -- memory.size, memory.grow
  else if opcode ∈ [0x3f, 0x40] then some [.leb .uint32]
  -- i32.const, i64.const, f32.const, f64.const
  else if opcode = 0x41 then some [.leb .int32]
  else if opcode = 0x42 then some [.leb .int64]
  else if opcode = 0x43 then some [.bytes 4]
  else if opcode = 0x44 then some [.bytes 8]
  -- from i32.eqz to i64.extend32_s
  else if 0x45 ≤ opcode ∧ opcode ≤ 0xc4 then some []
  else none

/-- Behind the prefix of the saturating truncations and the bulk memory operations, of whose number the
handler keeps a byte. -/
def miscOperands (opcode1 : UInt8) : Option (List Operand) :=
  if opcode1 ≤ 7 then some []
  -- memory.init, data.drop, memory.copy, memory.fill
  else if opcode1 = 8 then some [.leb .uint32, .bytes 1]
  else if opcode1 = 9 then some [.leb .uint32]
  else if opcode1 = 10 then some [.bytes 2]
  else if opcode1 = 11 then some [.bytes 1]
  else none

/-- `frame_ip` behind an instruction that is no control instruction. -/
def fetch (opcode : UInt8) (p : List UInt8) : Option (List UInt8) :=
  if opcode = opMiscPrefix then do
    let (opcode1, p) ← readLebUint32 p
    let os ← miscOperands opcode1.toUInt8
    os.foldlM fetchOperand p
  else do
    let os ← operands opcode
    os.foldlM fetchOperand p

/-- The bytes of an operand as the loader accepts them: the only table has the index 0. -/
def Operand.Encodes : Operand → List UInt8 → Prop
  | .leb kind, bs => kind.Encodes bs
  | .bytes n, bs => bs.length = n
  | .tableIndex, bs => bs = [0]

/-- The bytes behind an opcode. -/
inductive Encoded (opcode : UInt8) : List UInt8 → Prop
  | plain (os : List Operand) (chunks : List (List UInt8)) (hopcode : operands opcode = some os)
      (hchunks : List.Forall₂ Operand.Encodes os chunks) : Encoded opcode chunks.flatten
  | misc (leb : List UInt8) (opcode1 : UInt8) (os : List Operand) (chunks : List (List UInt8))
      (hopcode : opcode = opMiscPrefix) (hleb : LebKind.uint32.Encodes leb)
      (hvalue : opcode1.toNat = unsigned leb) (hos : miscOperands opcode1 = some os)
      (hchunks : List.Forall₂ Operand.Encodes os chunks) : Encoded opcode (leb ++ chunks.flatten)

section Agreement

variable {opcode : UInt8} {os : List Operand} {bs : List UInt8} {chunks : List (List UInt8)}

def Operand.skipped : Operand → Immediate
  | .leb _ => .leb
  | .bytes n => .bytes n
  | .tableIndex => .bytes 1

private theorem immediates_of_operands (h : operands opcode = some os) :
    immediates opcode = some (os.map Operand.skipped) ∧
      opcode ∉ [opBlock, opLoop, opIf, extOpBlock, extOpLoop, extOpIf, opElse, opEnd, opBrTable, extOpBrTableCache,
        opMiscPrefix] := by
  have hall : ∀ k : Fin 256, let b := UInt8.ofFin k; (operands b).isSome →
      (operands b).map (List.map Operand.skipped) = immediates b ∧
        b ∉ [opBlock, opLoop, opIf, extOpBlock, extOpLoop, extOpIf, opElse, opEnd, opBrTable, extOpBrTableCache,
          opMiscPrefix] := by
    decide +kernel
  have hsome : (operands opcode).isSome := by rw [h]; rfl
  obtain ⟨himm,hnot⟩ := hall opcode.toFin hsome
  constructor
  · change Option.map (List.map Operand.skipped) (operands opcode) = immediates opcode at himm
    rw [← himm,h]
    rfl
  · exact hnot

private theorem miscImmediates_of_operands {opcode1 : UInt8} (h : miscOperands opcode1 = some os) :
    miscImmediates opcode1.toUInt32 = some (os.map Operand.skipped) := by
  have hall : ∀ k : Fin 256, let b := UInt8.ofFin k; (miscOperands b).isSome →
      (miscOperands b).map (List.map Operand.skipped) = miscImmediates b.toUInt32 := by
    decide +kernel
  have himm := hall opcode1.toFin (by change (miscOperands opcode1).isSome; rw [h]; rfl)
  change Option.map (List.map Operand.skipped) (miscOperands opcode1) = miscImmediates opcode1.toUInt32 at himm
  rw [← himm,h]
  rfl

private theorem fetch_leb {kind : LebKind} (h : kind.Encodes bs) (p : List UInt8) :
    ∃ v, readLebAs kind (bs ++ p) = some (v, p) ∧ kind.toInt v = kind.value bs := by
  obtain ⟨v,hread,hv⟩ := h.read p
  exact ⟨v,(readLeb_agrees kind hread).1,hv⟩

private theorem fetch_operand {o : Operand} (h : o.Encodes bs) (p : List UInt8) :
    fetchOperand (bs ++ p) o = some p ∧ skipImmediate (bs ++ p) o.skipped = .ok p := by
  cases o with
  | leb kind =>
    obtain ⟨v,hread,-⟩ := fetch_leb h p
    constructor
    · rw [fetchOperand,hread]
      rfl
    · rw [Operand.skipped,skipImmediate,skipLeb_append h.leb]
  | bytes n =>
    obtain rfl := h
    constructor
    · rw [fetchOperand,if_neg (by rw [List.length_append]; omega),List.drop_left]
    · rw [Operand.skipped,skipImmediate,if_neg (by rw [List.length_append]; omega),List.drop_left]
  | tableIndex =>
    obtain rfl := h
    exact ⟨rfl,rfl⟩

private theorem fetch_operands (h : List.Forall₂ Operand.Encodes os chunks) (p : List UInt8) :
    os.foldlM fetchOperand (chunks.flatten ++ p) = some p ∧
      (os.map Operand.skipped).foldlM skipImmediate (chunks.flatten ++ p) = .ok p := by
  induction h with
  | nil => exact ⟨rfl,rfl⟩
  | @cons o chunk os chunks ho _ ih =>
    obtain ⟨hfetch,hskip⟩ := fetch_operand ho (chunks.flatten ++ p)
    rw [List.flatten_cons,List.append_assoc,List.foldlM_cons,List.map_cons,List.foldlM_cons,hfetch,hskip]
    exact ih

theorem Encoded.agrees (h : Encoded opcode bs) (p : List UInt8) :
    fetch opcode (bs ++ p) = some p ∧ skipOperands opcode (bs ++ p) = .ok p := by
  cases h with
  | plain os chunks hopcode hchunks =>
    obtain ⟨himm,hnot⟩ := immediates_of_operands hopcode
    simp only [List.mem_cons,List.not_mem_nil,or_false,not_or] at hnot
    obtain ⟨-,-,-,-,-,-,-,-,htable,hcache,hmisc⟩ := hnot
    obtain ⟨hfetch,hskip⟩ := fetch_operands hchunks p
    constructor
    · rw [fetch,if_neg hmisc,hopcode]
      exact hfetch
    · rw [skipOperands,if_neg htable,if_neg hcache,if_neg hmisc,himm]
      exact hskip
  | misc leb opcode1 os chunks hopcode hleb hvalue hos hchunks =>
    obtain ⟨hfetch,hskip⟩ := fetch_operands hchunks p
    have hread : Loader.readLebUint32 (leb ++ (chunks.flatten ++ p)) = .ok (opcode1.toUInt32, chunks.flatten ++ p) :=
      readLebUint32_iff.mpr ⟨leb,rfl,hleb,by rw [UInt8.toNat_toUInt32,hvalue]⟩
    rw [List.append_assoc]
    constructor
    · rw [fetch,if_pos hopcode,readLebUint32_of_loader hread]
      simp only [Option.bind_eq_bind,Option.bind_some,UInt8.toUInt8_toUInt32,hos]
      exact hfetch
    · have hnot : opcode ≠ opBrTable ∧ opcode ≠ extOpBrTableCache := by
        rw [hopcode]
        decide
      rw [skipOperands,if_neg hnot.1,if_neg hnot.2,if_pos hopcode,readUnchecked,hread]
      simp only [bind,Except.bind,miscImmediates_of_operands hos]
      exact hskip

theorem Encoded.token (h : Encoded opcode bs) (p : List UInt8) : token (opcode::(bs ++ p)) = .ok (.plain, p) := by
  have hnot : opcode ∉ [opBlock, opLoop, opIf] ∧ opcode ∉ [extOpBlock, extOpLoop, extOpIf] ∧ opcode ≠ opElse ∧
      opcode ≠ opEnd := by
    cases h with
    | plain os chunks hopcode hchunks =>
      have hnot := (immediates_of_operands hopcode).2
      simp only [List.mem_cons,List.not_mem_nil,or_false,not_or] at hnot ⊢
      tauto
    | misc leb opcode1 os chunks hopcode =>
      rw [hopcode]
      decide
  rw [Interp.token,if_neg hnot.1,if_neg hnot.2.1,if_neg hnot.2.2.1,if_neg hnot.2.2.2,(h.agrees p).2]
  rfl

/-- Behind every instruction that is no control instruction, the handlers and the search for the end of a
block reach the same byte. -/
theorem fetch_agrees (opcode : UInt8) {bs : List UInt8} (h : Encoded opcode bs) (p : List UInt8) :
    fetch opcode (bs ++ p) = some p ∧ token (opcode::(bs ++ p)) = .ok (.plain, p) :=
  ⟨(h.agrees p).1,h.token p⟩

/-- `i32.const -128` -/
theorem fetch_agrees_const : fetch 0x41 [0x80, 0x7f, 0x0b] = some [0x0b] ∧
    token [0x41, 0x80, 0x7f, 0x0b] = .ok (.plain, [0x0b]) :=
  fetch_agrees 0x41 (.plain [.leb .int32] [[0x80, 0x7f]] rfl
    (.cons ⟨.more (by decide) (.last (by decide)),by decide,
      (by decide : (-2 ^ 31 : ℤ) ≤ signed [0x80, 0x7f] ∧ signed [0x80, 0x7f] < 2 ^ 31)⟩ .nil))
    [0x0b]

end Agreement

end WamrTest.Interp
