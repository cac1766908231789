import WamrTest.Interp.Leb

/-!
# Loaded code

The bytes of the functions of a module, as the loader leaves them for the classic interpreter, and how
far an instruction reaches.
-/

namespace WamrTest.Interp

open Leb128 Loader

/-- The code of a module and the address of its first byte. -/
structure Code where
  base : ℕ
  bytes : List UInt8
  base_pos : 0 < base

def Code.bytesAt (c : Code) (a : ℕ) : List UInt8 := c.bytes.drop (a - c.base)

def Code.addr (c : Code) (p : List UInt8) : ℕ := c.base + c.bytes.length - p.length

def opUnreachable : UInt8 := 0x00
def opNop : UInt8 := 0x01
def opBlock : UInt8 := 0x02
def opLoop : UInt8 := 0x03
def opIf : UInt8 := 0x04
def opElse : UInt8 := 0x05
def opEnd : UInt8 := 0x0b
def opBr : UInt8 := 0x0c
def opBrIf : UInt8 := 0x0d
def opBrTable : UInt8 := 0x0e
def opReturn : UInt8 := 0x0f
def opCall : UInt8 := 0x10
def opCallIndirect : UInt8 := 0x11
def opMiscPrefix : UInt8 := 0xfc
def extOpBlock : UInt8 := 0xd3
def extOpLoop : UInt8 := 0xd4
def extOpIf : UInt8 := 0xd5
def extOpBrTableCache : UInt8 := 0xd6

/-- Why a function gives up: it reads past the code, or returns `false`. -/
inductive Stop
  | outside
  | failed
deriving DecidableEq

inductive Immediate
  | leb
  | bytes (n : ℕ)
deriving DecidableEq

def skipImmediate (p : List UInt8) : Immediate → Except Stop (List UInt8)
  | .leb => match skipLeb p with
    | some p => .ok p
    | none => .error .outside
  | .bytes n => if p.length < n then .error .outside else .ok (p.drop n)

/-- The immediates of the opcodes that are followed by nothing else. -/
def immediates (opcode : UInt8) : Option (List Immediate) :=
  -- unreachable, nop, return, drop, select, drop_64, select_64
  if opcode ∈ [opUnreachable, opNop, opReturn, 0x1a, 0x1b, 0xc5, 0xc6] then some []
  else if opcode ∈ [opBr, opBrIf, opCall] then some [.leb]
  else if opcode = opCallIndirect then some [.leb, .bytes 1]
  -- locals and globals
  else if 0x1d ≤ opcode ∧ opcode ≤ 0x24 then some [.leb]
  -- the fast opcodes of locals
  else if opcode ∈ [0xc7, 0xc9, 0xca] then some [.bytes 1]
  -- loads and stores
  else if 0x28 ≤ opcode ∧ opcode ≤ 0x3e then some [.leb, .leb]
  -- memory.size, memory.grow, i32.const, i64.const, f32.const, f64.const
  else if 0x3f ≤ opcode ∧ opcode ≤ 0x42 then some [.leb]
  else if opcode = 0x43 then some [.bytes 4]
  else if opcode = 0x44 then some [.bytes 8]
  -- from i32.eqz to i64.extend32_s
  else if 0x45 ≤ opcode ∧ opcode ≤ 0xc4 then some []
  else none

/-- Behind the prefix of the saturating truncations and the bulk memory operations. -/
def miscImmediates (opcode1 : UInt32) : Option (List Immediate) :=
  if opcode1 ≤ 7 then some []
  -- memory.init, data.drop, memory.copy, memory.fill
  else if opcode1 = 8 then some [.leb, .bytes 1]
  else if opcode1 = 9 then some [.leb]
  else if opcode1 = 10 then some [.bytes 2]
  else if opcode1 = 11 then some [.bytes 1]
  else none

/-- The loader's `read_leb_uint32`, of code that has no end. -/
def readUnchecked (p : List UInt8) : Except Stop (UInt32 × List UInt8) :=
  match Loader.readLebUint32 p with
  | .ok r => .ok r
  | .error e => .error (if e = unexpectedEnd then .outside else .failed)

/-- `while (*p == WASM_OP_NOP) p++` -/
def skipNops : List UInt8 → Except Stop (List UInt8)
  | [] => .error .outside
  | b::p => if b = opNop then skipNops p else .ok (b::p)

/-- What `wasm_loader_find_block_addr` skips behind an opcode that opens and closes no block. -/
def skipOperands (opcode : UInt8) (p : List UInt8) : Except Stop (List UInt8) :=
  if opcode = opBrTable then do
    let (count, p) ← readUnchecked p
    let p ← skipImmediate p (.bytes (count + 1).toNat)
    skipNops p
  else if opcode = extOpBrTableCache then do
    let (_, p) ← readUnchecked p
    skipNops p
  else if opcode = opMiscPrefix then do
    let (opcode1, p) ← readUnchecked p
    match miscImmediates opcode1 with
    | none => .error .failed
    | some is => is.foldlM skipImmediate p
  else match immediates opcode with
    | none => .error .failed
    | some is => is.foldlM skipImmediate p

/-- What an instruction means to the search for the end of a block. -/
inductive Token
  | plain
  | start
  | middle
  | stop
deriving DecidableEq

/-- One turn of the loop of `wasm_loader_find_block_addr`, as far as `p` is concerned. -/
def token : List UInt8 → Except Stop (Token × List UInt8)
  | [] => .error .outside
  | opcode::p =>
    if opcode ∈ [opBlock, opLoop, opIf] then do
      -- block result type
      let p ← skipImmediate p (.bytes 1)
      .ok (.start, p)
    else if opcode ∈ [extOpBlock, extOpLoop, extOpIf] then do
      -- block type
      let p ← skipImmediate p .leb
      .ok (.start, p)
    else if opcode = opElse then .ok (.middle, p)
    else if opcode = opEnd then .ok (.stop, p)
    else do
      let p ← skipOperands opcode p
      .ok (.plain, p)

section Addresses

variable {c : Code} {p q : List UInt8}

theorem Code.addr_pos (h : p <:+ c.bytes) : 0 < c.addr p := by
  have hpos := c.base_pos
  have hle := h.length_le
  unfold Code.addr
  omega

theorem Code.bytesAt_addr (h : p <:+ c.bytes) : c.bytesAt (c.addr p) = p := by
  have hle := h.length_le
  have hdrop : c.addr p - c.base = c.bytes.length - p.length := by
    unfold Code.addr
    omega
  rw [Code.bytesAt,hdrop]
  exact (List.suffix_iff_eq_drop.mp h).symm

theorem Code.addr_cons {b : UInt8} (h : b::p <:+ c.bytes) : c.addr p = c.addr (b::p) + 1 := by
  have hle := h.length_le
  rw [List.length_cons] at hle
  unfold Code.addr
  rw [List.length_cons]
  omega

end Addresses

section Tokens

variable {p q : List UInt8} {t : Token}

private theorem skipLeb_suffix (h : skipLeb p = some q) : q <:+ p := by
  induction p with
  | nil => exact absurd h (by simp [skipLeb])
  | cons b p ih =>
    rw [skipLeb] at h
    split at h
    next => exact (ih h).trans (List.suffix_cons b p)
    next =>
      obtain rfl := Option.some.inj h
      exact List.suffix_cons b _

private theorem skipImmediate_suffix {i : Immediate} (h : skipImmediate p i = .ok q) : q <:+ p := by
  cases i with
  | leb =>
    rw [skipImmediate] at h
    split at h
    next hskip =>
      obtain rfl := Except.ok.inj h
      exact skipLeb_suffix hskip
    next => exact absurd h (by simp)
  | bytes n =>
    rw [skipImmediate] at h
    split at h
    next => exact absurd h (by simp)
    next =>
      obtain rfl := Except.ok.inj h
      exact List.drop_suffix n p

private theorem skipImmediates_suffix {is : List Immediate} (h : is.foldlM skipImmediate p = .ok q) : q <:+ p := by
  induction is generalizing p with
  | nil =>
    obtain rfl := Except.ok.inj h
    exact List.suffix_rfl
  | cons i is ih =>
    rw [List.foldlM_cons] at h
    obtain ⟨p',hfirst,h⟩ := Fallible.bind_ok h
    exact (ih h).trans (skipImmediate_suffix hfirst)

private theorem skipNops_suffix (h : skipNops p = .ok q) : q <:+ p := by
  induction p with
  | nil => exact absurd h (by simp [skipNops])
  | cons b p ih =>
    rw [skipNops] at h
    split at h
    next => exact (ih h).trans (List.suffix_cons b p)
    next =>
      obtain rfl := Except.ok.inj h
      exact List.suffix_rfl

private theorem readUnchecked_suffix {v : UInt32} (h : readUnchecked p = .ok (v, q)) : q <:+ p := by
  unfold readUnchecked at h
  split at h
  next hread =>
    obtain rfl := Except.ok.inj h
    obtain ⟨bs,rfl,-⟩ := readLebUint32_iff.mp hread
    exact List.suffix_append bs q
  next => exact absurd h (by simp)

private theorem skipOperands_suffix {opcode : UInt8} (h : skipOperands opcode p = .ok q) : q <:+ p := by
  unfold skipOperands at h
  split at h
  next =>
    obtain ⟨⟨count,p₁⟩,hcount,h⟩ := Fallible.bind_ok h
    obtain ⟨p₂,hdepths,h⟩ := Fallible.bind_ok h
    exact ((skipNops_suffix h).trans (skipImmediate_suffix hdepths)).trans (readUnchecked_suffix hcount)
  next =>
    split at h
    next =>
      obtain ⟨⟨count,p₁⟩,hcount,h⟩ := Fallible.bind_ok h
      exact (skipNops_suffix h).trans (readUnchecked_suffix hcount)
    next =>
      split at h
      next =>
        obtain ⟨⟨opcode1,p₁⟩,hopcode,h⟩ := Fallible.bind_ok h
        simp only at h
        split at h
        next => exact absurd h (by simp)
        next => exact (skipImmediates_suffix h).trans (readUnchecked_suffix hopcode)
      next =>
        split at h
        next => exact absurd h (by simp)
        next => exact skipImmediates_suffix h

private theorem token_suffix {opcode : UInt8} (h : token (opcode::p) = .ok (t, q)) : q <:+ p := by
  rw [token] at h
  split at h
  next =>
    obtain ⟨p',hskip,h⟩ := Fallible.bind_ok h
    obtain ⟨-,rfl⟩ := Prod.mk.inj (Except.ok.inj h)
    exact skipImmediate_suffix hskip
  next =>
    split at h
    next =>
      obtain ⟨p',hskip,h⟩ := Fallible.bind_ok h
      obtain ⟨-,rfl⟩ := Prod.mk.inj (Except.ok.inj h)
      exact skipImmediate_suffix hskip
    next =>
      split at h
      next =>
        obtain ⟨-,rfl⟩ := Prod.mk.inj (Except.ok.inj h)
        exact List.suffix_rfl
      next =>
        split at h
        next =>
          obtain ⟨-,rfl⟩ := Prod.mk.inj (Except.ok.inj h)
          exact List.suffix_rfl
        next =>
          obtain ⟨p',hskip,h⟩ := Fallible.bind_ok h
          obtain ⟨-,rfl⟩ := Prod.mk.inj (Except.ok.inj h)
          exact skipOperands_suffix hskip

theorem token_shorter (h : token p = .ok (t, q)) : q <:+ p ∧ q.length < p.length := by
  cases p with
  | nil => exact absurd h (by simp [token])
  | cons opcode p =>
    have hsuffix := token_suffix h
    have hle := hsuffix.length_le
    exact ⟨hsuffix.trans (List.suffix_cons opcode p),by rw [List.length_cons]; omega⟩

end Tokens

end WamrTest.Interp
