import WamrTest.Interp.Control

/-!
# Structured code

Code as the loader accepts it is a sequence of instructions in which blocks are nested. Here is what it
does, without addresses, labels and cache, and that a search finds the parts of a block.
-/

namespace WamrTest.Interp

open Leb128 Loader

structure Leb32 where
  bytes : List UInt8
  value : UInt32
  encodes : LebKind.uint32.Encodes bytes
  value_eq : value.toNat = unsigned bytes

inductive BlockType
  | short (valueType : UInt8)
  | ext (typeIndex : Leb32)

/-- An instruction that is no control instruction. -/
structure Plain where
  opcode : UInt8
  operands : List UInt8
  encoded : Encoded opcode operands

/-- A `br_table` as the loader leaves it: a byte for each depth, and `nop`s behind them. -/
structure BrTable where
  count : Leb32
  depths : List UInt8
  padding : ℕ
  length_depths : depths.length = count.value.toNat + 1
  count_lt : count.value.toNat + 1 < 2 ^ 32

inductive Seq
  | done
  | nop (k : Seq)
  | unreachable (k : Seq)
  | plain (i : Plain) (k : Seq)
  | block (t : BlockType) (body k : Seq)
  | loop (t : BlockType) (body k : Seq)
  | if_ (t : BlockType) (body k : Seq)
  | ifElse (t : BlockType) (body₁ body₂ k : Seq)
  | br (depth : Leb32) (k : Seq)
  | brIf (depth : Leb32) (k : Seq)
  | brTable (t : BrTable) (k : Seq)
  | return_ (k : Seq)

def BlockType.encode (shortOp extOp : UInt8) : BlockType → List UInt8
  | .short valueType => [shortOp, valueType]
  | .ext typeIndex => extOp::typeIndex.bytes

def BrTable.encode (t : BrTable) : List UInt8 :=
  opBrTable::(t.count.bytes ++ (t.depths ++ List.replicate t.padding opNop))

def Seq.encode : Seq → List UInt8
  | .done => []
  | .nop k => opNop::k.encode
  | .unreachable k => opUnreachable::k.encode
  | .plain i k => i.opcode::(i.operands ++ k.encode)
  | .block t body k => t.encode opBlock extOpBlock ++ (body.encode ++ opEnd::k.encode)
  | .loop t body k => t.encode opLoop extOpLoop ++ (body.encode ++ opEnd::k.encode)
  | .if_ t body k => t.encode opIf extOpIf ++ (body.encode ++ opEnd::k.encode)
  | .ifElse t body₁ body₂ k =>
    t.encode opIf extOpIf ++ (body₁.encode ++ opElse::(body₂.encode ++ opEnd::k.encode))
  | .br depth k => opBr::(depth.bytes ++ k.encode)
  | .brIf depth k => opBrIf::(depth.bytes ++ k.encode)
  | .brTable t k => t.encode ++ k.encode
  | .return_ k => opReturn::k.encode

/-- How a sequence ends; a branch leaves so many blocks before the one it goes to. -/
inductive Outcome (σ : Type)
  | fall (state : σ) (stack : List UInt32)
  | branch (depth : ℕ) (state : σ) (stack : List UInt32)
  | return_ (state : σ) (stack : List UInt32)
  | trap (message : String) (state : σ)

section Meaning

variable {σ : Type}

/-- The end of a block over `frameSp` cells; a branch to it keeps so many cells. -/
def Outcome.leave (frameSp cellNum : ℕ) : Outcome σ → Option (Outcome σ)
  | .branch 0 state stack => (unwind frameSp cellNum stack).map (.fall state)
  | .branch (depth+1) state stack => some (.branch depth state stack)
  | o => some o

def Outcome.andThen (k : σ → List UInt32 → Option (Outcome σ)) : Outcome σ → Option (Outcome σ)
  | .fall state stack => k state stack
  | o => some o

/-- A block and what follows it. -/
def runBlock (type : WasmType) (stack : List UInt32) (body : List UInt32 → Option (Outcome σ))
    (k : σ → List UInt32 → Option (Outcome σ)) : Option (Outcome σ) :=
  if type.paramCellNum ≤ stack.length then do
    let o ← body stack
    let o ← o.leave (stack.length - type.paramCellNum) type.retCellNum
    o.andThen k
  else none

/-- A turn of a loop, and another one or what follows it. -/
def runLoop (type : WasmType) (stack : List UInt32) (body : List UInt32 → Option (Outcome σ))
    (again k : σ → List UInt32 → Option (Outcome σ)) : Option (Outcome σ) :=
  if type.paramCellNum ≤ stack.length then do
    match ← body stack with
    | .branch 0 state rest => (unwind (stack.length - type.paramCellNum) type.paramCellNum rest).bind (again state)
    | o => do
      let o ← o.leave (stack.length - type.paramCellNum) type.paramCellNum
      o.andThen k
  else none

variable (f : Function σ)

def BlockType.type : BlockType → WasmType
  | .short valueType => ⟨0, wasmValueTypeCellNum valueType⟩
  | .ext typeIndex => f.wasmTypes typeIndex.value

/-- What a sequence does; nothing is said when the fuel ends or cells are missing. -/
def eval : ℕ → Seq → σ → List UInt32 → Option (Outcome σ)
  | 0, _, _, _ => none
  | _+1, .done, state, stack => some (.fall state stack)
  | fuel+1, .nop k, state, stack => eval fuel k state stack
  | _+1, .unreachable _, state, _ => some (.trap "unreachable" state)
  | fuel+1, .plain i k, state, stack =>
    match f.operate (i.opcode::i.operands) state stack with
    | .error (message, state) => some (.trap message state)
    | .ok (state, stack) => eval fuel k state stack
  | fuel+1, .block t body k, state, stack => runBlock (t.type f) stack (eval fuel body state) (eval fuel k)
  | fuel+1, .loop t body k, state, stack =>
    runLoop (t.type f) stack (eval fuel body state) (eval fuel (.loop t body k)) (eval fuel k)
  | _+1, .if_ _ _ _, _, [] => none
  | fuel+1, .if_ t body k, state, cond::stack =>
    if cond ≠ 0 then runBlock (t.type f) stack (eval fuel body state) (eval fuel k) else eval fuel k state stack
  | _+1, .ifElse _ _ _ _, _, [] => none
  | fuel+1, .ifElse t body₁ body₂ k, state, cond::stack =>
    runBlock (t.type f) stack (eval fuel (if cond ≠ 0 then body₁ else body₂) state) (eval fuel k)
  | _+1, .br depth _, state, stack => some (.branch depth.value.toNat state stack)
  | _+1, .brIf _ _, _, [] => none
  | fuel+1, .brIf depth k, state, cond::stack =>
    if cond ≠ 0 then some (.branch depth.value.toNat state stack) else eval fuel k state stack
  | _+1, .brTable _ _, _, [] => none
  | _+1, .brTable t _, state, lidx::stack =>
    (t.depths[min lidx.toNat t.count.value.toNat]?).map fun depth => .branch depth.toNat state stack
  | _+1, .return_ _, state, stack => some (.return_ state stack)

/-- What a call of a function with this body gives; a branch may go to the function's own label. -/
def evalFunction (fuel : ℕ) (body : Seq) (state : σ) : Option (Next σ) := do
  let o ← eval f fuel body state []
  match ← o.leave 0 f.retCellNum with
  | .fall state stack | .return_ state stack =>
    if f.retCellNum ≤ stack.length then some (.returned state (stack.take f.retCellNum)) else none
  | .trap message state => some (.exception message state)
  | .branch _ _ _ => none

end Meaning

section Search

variable {c : Code} {depth elseAddr : ℕ}

private theorem BlockType.token_start {shortOp extOp : UInt8} (hshort : shortOp ∈ [opBlock, opLoop, opIf])
    (hext : extOp ∈ [extOpBlock, extOpLoop, extOpIf]) (t : BlockType) (p : List UInt8) :
    token (t.encode shortOp extOp ++ p) = .ok (.start, p) := by
  cases t with
  | short valueType =>
    rw [BlockType.encode,List.cons_append,token,if_pos hshort,skipImmediate,if_neg (by simp)]
    rfl
  | ext typeIndex =>
    have hnot : extOp ∉ [opBlock, opLoop, opIf] := by
      simp only [List.mem_cons,List.not_mem_nil,or_false] at hext
      rcases hext with rfl | rfl | rfl <;> decide
    rw [BlockType.encode,List.cons_append,token,if_neg hnot,if_pos hext,skipImmediate,
      skipLeb_append typeIndex.encodes.leb]
    rfl

private theorem Leb32.token_plain {opcode : UInt8} (himm : immediates opcode = some [.leb])
    (hnot : opcode ∉ [opBlock, opLoop, opIf] ∧ opcode ∉ [extOpBlock, extOpLoop, extOpIf] ∧ opcode ≠ opElse ∧
      opcode ≠ opEnd ∧ opcode ≠ opBrTable ∧ opcode ≠ extOpBrTableCache ∧ opcode ≠ opMiscPrefix)
    (l : Leb32) (p : List UInt8) : token (opcode::(l.bytes ++ p)) = .ok (.plain, p) := by
  obtain ⟨hblock,hext,helse,hend,htable,hcache,hmisc⟩ := hnot
  have hskip : skipOperands opcode (l.bytes ++ p) = .ok p := by
    rw [skipOperands,if_neg htable,if_neg hcache,if_neg hmisc,himm]
    simp only
    rw [List.foldlM_cons,skipImmediate,skipLeb_append l.encodes.leb]
    rfl
  rw [token,if_neg hblock,if_neg hext,if_neg helse,if_neg hend,hskip]
  rfl

private theorem blockScan_nop (p : List UInt8) :
    blockScan c (opNop::p) depth elseAddr = blockScan c p depth elseAddr :=
  blockScan_plain rfl

private theorem blockScan_skipNops (p : List UInt8) :
    (skipNops p).bind (fun q => blockScan c q depth elseAddr) = blockScan c p depth elseAddr := by
  induction p with
  | nil => exact (blockScan_error rfl).symm
  | cons b p ih =>
    rw [skipNops]
    split_ifs with hb
    · rw [hb,blockScan_nop]
      exact ih
    · rfl

theorem BrTable.skipOperands (t : BrTable) (p : List UInt8) :
    skipOperands opBrTable (t.count.bytes ++ (t.depths ++ List.replicate t.padding opNop) ++ p) =
      skipNops (List.replicate t.padding opNop ++ p) := by
  have hread : Loader.readLebUint32 (t.count.bytes ++ (t.depths ++ (List.replicate t.padding opNop ++ p))) =
      .ok (t.count.value, t.depths ++ (List.replicate t.padding opNop ++ p)) :=
    readLebUint32_iff.mpr ⟨t.count.bytes,rfl,t.count.encodes,t.count.value_eq⟩
  have hcount : (t.count.value + 1).toNat = t.depths.length := by
    have hlt := t.count_lt
    rw [t.length_depths,UInt32.toNat_add]
    exact Nat.mod_eq_of_lt hlt
  rw [List.append_assoc,List.append_assoc,Interp.skipOperands,if_pos rfl,readUnchecked,hread]
  simp only [bind,Except.bind,skipImmediate,hcount]
  rw [if_neg (by rw [List.length_append]; omega)]
  simp only [List.drop_left]

theorem blockScan_padded {p q : List UInt8} {n : ℕ}
    (h : token q = (skipNops (List.replicate n opNop ++ p)).map (Prod.mk Token.plain)) :
    blockScan c q depth elseAddr = blockScan c p depth elseAddr := by
  have hpadding : ∀ n, blockScan c (List.replicate n opNop ++ p) depth elseAddr = blockScan c p depth elseAddr := by
    intro n
    induction n with
    | zero => rfl
    | succ n ih => rw [List.replicate_succ,List.cons_append,blockScan_nop,ih]
  have hnops := (blockScan_skipNops (List.replicate n opNop ++ p)).trans (hpadding n)
  apply Eq.trans _ hnops
  cases hskip : skipNops (List.replicate n opNop ++ p) with
  | error e =>
    rw [hskip] at h
    exact blockScan_error h
  | ok q =>
    rw [hskip] at h
    exact blockScan_plain h

theorem BrTable.blockScan (t : BrTable) (p : List UInt8) :
    blockScan c (t.encode ++ p) depth elseAddr = blockScan c p depth elseAddr := by
  apply blockScan_padded (n := t.padding)
  rw [BrTable.encode,List.cons_append]
  change (do let p ← Interp.skipOperands opBrTable _; Except.ok (Token.plain, p)) = _
  rw [t.skipOperands]
  cases skipNops (List.replicate t.padding opNop ++ p) <;> rfl

/-- What is between the start of a block and its end, and behind it. -/
theorem blockScan_enclosed {p q body rest : List UInt8} (hstart : token q = .ok (.start, body ++ (opEnd::rest ++ p)))
    (hdepth : 0 < depth) (hbody : blockScan c (body ++ (opEnd::rest ++ p)) (depth + 1) elseAddr =
      blockScan c (opEnd::rest ++ p) (depth + 1) elseAddr)
    (hrest : blockScan c (rest ++ p) depth elseAddr = blockScan c p depth elseAddr) :
    blockScan c q depth elseAddr = blockScan c p depth elseAddr := by
  rw [blockScan_start hstart,hbody,List.cons_append,blockScan_stop (q := rest ++ p) rfl,if_neg (by omega),
    Nat.add_sub_cancel,hrest]

/-- A sequence opens and closes its own blocks. -/
theorem Seq.blockScan (s : Seq) (p : List UInt8) (hdepth : 0 < depth) :
    blockScan c (s.encode ++ p) depth elseAddr = blockScan c p depth elseAddr := by
  induction s generalizing p depth with
  | done => rfl
  | nop k ih => exact (blockScan_nop _).trans (ih p hdepth)
  | unreachable k ih => exact (blockScan_plain rfl).trans (ih p hdepth)
  | return_ k ih => exact (blockScan_plain rfl).trans (ih p hdepth)
  | plain i k ih =>
    rw [Seq.encode,List.cons_append,List.append_assoc,blockScan_plain (i.encoded.token _),ih p hdepth]
  | block t body k ihbody ihk =>
    rw [Seq.encode,List.append_assoc,List.append_assoc]
    exact blockScan_enclosed (t.token_start (by decide) (by decide) _) hdepth (ihbody _ (Nat.succ_pos _)) (ihk p hdepth)
  | loop t body k ihbody ihk =>
    rw [Seq.encode,List.append_assoc,List.append_assoc]
    exact blockScan_enclosed (t.token_start (by decide) (by decide) _) hdepth (ihbody _ (Nat.succ_pos _)) (ihk p hdepth)
  | if_ t body k ihbody ihk =>
    rw [Seq.encode,List.append_assoc,List.append_assoc]
    exact blockScan_enclosed (t.token_start (by decide) (by decide) _) hdepth (ihbody _ (Nat.succ_pos _)) (ihk p hdepth)
  | ifElse t body₁ body₂ k ih₁ ih₂ ihk =>
    rw [Seq.encode,List.append_assoc,blockScan_start (t.token_start (by decide) (by decide) _),List.append_assoc,
      ih₁ _ (Nat.succ_pos _),List.cons_append,blockScan_middle (q := body₂.encode ++ opEnd::k.encode ++ p) rfl,
      if_neg (by omega),List.append_assoc,ih₂ _ (Nat.succ_pos _),List.cons_append,
      blockScan_stop (q := k.encode ++ p) rfl,if_neg (by omega),Nat.succ_sub_one,ihk p hdepth]
  | br l k ih =>
    rw [Seq.encode,List.cons_append,List.append_assoc,blockScan_plain (l.token_plain rfl (by decide) _),ih p hdepth]
  | brIf l k ih =>
    rw [Seq.encode,List.cons_append,List.append_assoc,blockScan_plain (l.token_plain rfl (by decide) _),ih p hdepth]
  | brTable t k ih => rw [Seq.encode,List.append_assoc,t.blockScan,ih p hdepth]

theorem blockAt_body {body : Seq} {p : List UInt8} (h : body.encode ++ opEnd::p <:+ c.bytes) :
    blockAt c (c.addr (body.encode ++ opEnd::p)) = .ok (0, c.addr (opEnd::p)) := by
  rw [blockAt,c.bytesAt_addr h,body.blockScan _ Nat.one_pos,blockScan_stop (q := p) rfl,if_pos rfl]

theorem blockAt_ifElse {body₁ body₂ : Seq} {p : List UInt8}
    (h : body₁.encode ++ opElse::(body₂.encode ++ opEnd::p) <:+ c.bytes) :
    blockAt c (c.addr (body₁.encode ++ opElse::(body₂.encode ++ opEnd::p))) =
      .ok (c.addr (opElse::(body₂.encode ++ opEnd::p)), c.addr (opEnd::p)) := by
  rw [blockAt,c.bytesAt_addr h,body₁.blockScan _ Nat.one_pos,
    blockScan_middle (q := body₂.encode ++ opEnd::p) rfl,if_pos rfl,body₂.blockScan _ Nat.one_pos,
    blockScan_stop (q := p) rfl,if_pos rfl]

end Search

end WamrTest.Interp
