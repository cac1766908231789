import WamrTest.Interp.FindBlock
import WamrTest.Interp.Operands

/-!
# The control instructions of the interpreter

One activation of a function in `wasm_interp_call_func_bytecode`: the labels it keeps for the blocks that
are open, and where a branch goes. What the other instructions do is a parameter.
-/

namespace WamrTest.Interp

/-- `WASMBranchBlock`; 0 is `NULL`, and a stack pointer is the number of the cells below it. -/
structure Label where
  beginAddr : ℕ
  targetAddr : ℕ
  frameSp : ℕ
  cellNum : ℕ

structure WasmType where
  paramCellNum : ℕ
  retCellNum : ℕ

structure BrTableCache where
  brTableOpAddr : ℕ
  brDepths : List UInt32

/-- What an activation does not change. `operate` is given the bytes of an instruction that is no control
instruction, everything but the control state, and the operand stack, its top first; it gives an
exception and the state there, or goes on. `searches` are those of a call before it comes back. -/
structure Function (σ : Type) where
  code : Code
  wasmTypes : UInt32 → WasmType
  brTableCacheList : List BrTableCache
  retCellNum : ℕ
  operate : List UInt8 → σ → List UInt32 → Except (String × σ) (σ × List UInt32)
  searches : List UInt8 → σ → List UInt32 → List (ℕ × Bool)

/-- The variables of the loop. -/
structure Activation (σ : Type) where
  ip : ℕ
  state : σ
  stack : List UInt32
  csp : List Label
  cache : Cache

/-- After an instruction; outside: it has read or written where nothing is. -/
inductive Next (σ : Type)
  | go (a : Activation σ)
  | returned (state : σ) (cells : List UInt32)
  | exception (message : String) (state : σ)
  | outside

def findFailed : String := "find block address failed"

def wasmValueTypeCellNum (valueType : UInt8) : ℕ :=
  if valueType = 0x7f ∨ valueType = 0x7d then 1
  else if valueType = 0x7e ∨ valueType = 0x7c then 2
  else 0

inductive Control
  | unreachable
  | nop
  | block (ext : Bool)
  | loop (ext : Bool)
  | if_ (ext : Bool)
  | else_
  | end_
  | br
  | brIf
  | brTable
  | brTableCache
  | return_

def control (opcode : UInt8) : Option Control :=
  if opcode = opUnreachable then some .unreachable
  else if opcode = opNop then some .nop
  else if opcode = opBlock then some (.block false)
  else if opcode = extOpBlock then some (.block true)
  else if opcode = opLoop then some (.loop false)
  else if opcode = extOpLoop then some (.loop true)
  else if opcode = opIf then some (.if_ false)
  else if opcode = extOpIf then some (.if_ true)
  else if opcode = opElse then some .else_
  else if opcode = opEnd then some .end_
  else if opcode = opBr then some .br
  else if opcode = opBrIf then some .brIf
  else if opcode = opBrTable then some .brTable
  else if opcode = extOpBrTableCache then some .brTableCache
  else if opcode = opReturn then some .return_
  else none

/-- The stack of `POP_CSP_N`: so many cells are copied down to a stack pointer. -/
def unwind (frameSp cellNum : ℕ) (stack : List UInt32) : Option (List UInt32) :=
  if frameSp + cellNum ≤ stack.length then some (stack.take cellNum ++ stack.drop (stack.length - frameSp)) else none

section Handlers

variable {σ : Type} (f : Function σ) (a : Activation σ)

/-- `PUSH_CSP`; execution goes on at `ip`. -/
def pushCsp (paramCellNum cellNum beginAddr targetAddr ip : ℕ) : Next σ :=
  if paramCellNum ≤ a.stack.length then
    .go { a with ip := ip, csp := ⟨beginAddr, targetAddr, a.stack.length - paramCellNum, cellNum⟩::a.csp }
  else .outside

/-- From `label_pop_csp_n` on. -/
def popCspN (depth : ℕ) : Next σ :=
  match a.csp.drop depth with
  | [] => .outside
  | label::csp =>
    match unwind label.frameSp label.cellNum a.stack with
    | none => .outside
    | some stack =>
      -- only a block may have been entered without knowing its end
      if label.targetAddr = 0 then
        match findBlockAddr f.code a.cache label.beginAddr false with
        | (.error .outside, _) => .outside
        | (.error .failed, _) => .exception findFailed a.state
        | (.ok found, cache) => .go ⟨found.endAddr, a.state, stack, label::csp, cache⟩
      else .go ⟨label.targetAddr, a.state, stack, label::csp, a.cache⟩

/-- `return`, and the end of the function. -/
def finish (state : σ) (stack : List UInt32) : Next σ :=
  if f.retCellNum ≤ stack.length then .returned state (stack.take f.retCellNum) else .outside

def readBlockType (ext : Bool) (p : List UInt8) : Option (WasmType × List UInt8) :=
  if ext then (readLebUint32 p).map fun (typeIndex, p) => (f.wasmTypes typeIndex, p)
  else match p with
    | [] => none
    | valueType::p => some (⟨0, wasmValueTypeCellNum valueType⟩, p)

def cachedEnd (cache : Cache) (startAddr : ℕ) : ℕ :=
  let (first, second) := cache (startAddr % blockAddrCacheSize)
  if first.startAddr = startAddr then first.endAddr
  else if second.startAddr = startAddr then second.endAddr
  else 0

/-- `if`, behind its block type. The handler looks into the cache before it searches, as the search does. -/
def handleIf (type : WasmType) (ip : ℕ) : Next σ :=
  match findBlockAddr f.code a.cache ip true with
  | (.error .outside, _) => .outside
  | (.error .failed, _) => .exception findFailed a.state
  | (.ok found, cache) =>
    match a.stack with
    | [] => .outside
    | cond::stack =>
      let a : Activation σ := ⟨ip, a.state, stack, a.csp, cache⟩
      let elseAddr := found.elseAddr.getD 0
      if cond ≠ 0 then pushCsp a type.paramCellNum type.retCellNum ip found.endAddr ip
      else if elseAddr = 0 then .go { a with ip := found.endAddr + 1 }
      else pushCsp a type.paramCellNum type.retCellNum ip found.endAddr (elseAddr + 1)

/-- A control instruction, with the bytes behind its opcode. -/
def handle (p : List UInt8) : Control → Next σ
  | .unreachable => .exception "unreachable" a.state
  | .nop => .go { a with ip := f.code.addr p }
  | .block ext =>
    match readBlockType f ext p with
    | none => .outside
    | some (type, p) =>
      let ip := f.code.addr p
      pushCsp a type.paramCellNum type.retCellNum ip (cachedEnd a.cache ip) ip
  | .loop ext =>
    match readBlockType f ext p with
    | none => .outside
    | some (type, p) =>
      let ip := f.code.addr p
      pushCsp a type.paramCellNum type.paramCellNum ip ip ip
  | .if_ ext =>
    match readBlockType f ext p with
    | none => .outside
    | some (type, p) => handleIf f a type (f.code.addr p)
  | .else_ =>
    match a.csp with
    | [] => .outside
    | label::_ => .go { a with ip := label.targetAddr }
  | .end_ =>
    match a.csp with
    | _::label::csp => .go { a with ip := f.code.addr p, csp := label::csp }
    | _ => finish f a.state a.stack
  | .br =>
    match readLebUint32 p with
    | none => .outside
    | some (depth, _) => popCspN f a depth.toNat
  | .brIf =>
    match readLebUint32 p, a.stack with
    | some (depth, p), cond::stack =>
      if cond ≠ 0 then popCspN f { a with stack := stack } depth.toNat
      else .go { a with ip := f.code.addr p, stack := stack }
    | _, _ => .outside
  | .brTable =>
    match readLebUint32 p, a.stack with
    | some (count, p), lidx::stack =>
      match p[(if lidx > count then count else lidx).toNat]? with
      | none => .outside
      | some depth => popCspN f { a with stack := stack } depth.toNat
    | _, _ => .outside
  | .brTableCache =>
    match f.brTableCacheList.find? (fun node => node.brTableOpAddr = a.ip), a.stack with
    | some node, lidx::stack =>
      match node.brDepths[lidx.toNat]? with
      | none => .outside
      | some depth => popCspN f { a with stack := stack } depth.toNat
    | _, _ => .outside
  | .return_ => finish f a.state a.stack

/-- One turn of the loop. -/
def step : Next σ :=
  match f.code.bytesAt a.ip with
  | [] => .outside
  | opcode::p =>
    match control opcode with
    | some c => handle f a p c
    | none =>
      match fetch opcode p with
      | none => .outside
      | some q =>
        let instruction := opcode::p.take (p.length - q.length)
        match f.operate instruction a.state a.stack with
        | .error (message, state) => .exception message state
        | .ok (state, stack) =>
          .go ⟨f.code.addr q, state, stack, a.csp, a.cache.search f.code (f.searches instruction a.state a.stack)⟩

def interpret : ℕ → Activation σ → Next σ
  | 0, a => .go a
  | fuel+1, a =>
    match step f a with
    | .go a => interpret fuel a
    | next => next

/-- A new activation, with the label of the function. -/
def start (p : List UInt8) (endAddr : ℕ) (state : σ) (cache : Cache) : Activation σ :=
  ⟨f.code.addr p, state, [], [⟨f.code.addr p, endAddr, 0, f.retCellNum⟩], cache⟩

end Handlers

end WamrTest.Interp
