import Mathlib.Logic.Relation
import WamrTest.Interp.Structured

/-!
# The interpreter does what structured code says

Labels, addresses and the cache of the interpreter are no more than a way to run structured code: what
`eval` says of the body of a function is what `interpret` does with its bytes, whatever the cache holds of
earlier searches.
-/

namespace WamrTest.Interp

open Leb128 Loader

variable {σ : Type} {f : Function σ}

def Reaches (f : Function σ) : Activation σ → Activation σ → Prop :=
  Relation.ReflTransGen fun x y => step f x = .go y

/-- Where a branch to a label goes: to an address that it has, or to the end of its block. -/
def Target (f : Function σ) (label : Label) (a : ℕ) : Prop :=
  (label.targetAddr = a ∧ a ≠ 0) ∨
    (label.targetAddr = 0 ∧ label.beginAddr ≠ 0 ∧ ∃ elseAddr, blockAt f.code label.beginAddr = .ok (elseAddr, a))

/-- From `x` the interpreter comes to the end of a sequence, which is at the bytes `p`. -/
def Simulates (f : Function σ) (x : Activation σ) (p : List UInt8) (csp : List Label) : Outcome σ → Prop
  | .fall state stack => ∃ cache, cache.Right f.code ∧ Reaches f x ⟨f.code.addr p, state, stack, csp, cache⟩
  | .branch depth state stack => ∀ label csp' target stack', csp.drop depth = label::csp' →
    Target f label target → unwind label.frameSp label.cellNum stack = some stack' →
      ∃ cache, cache.Right f.code ∧ Reaches f x ⟨target, state, stack', label::csp', cache⟩
  | .return_ state stack => ∃ y, Reaches f x y ∧ step f y = finish f state stack
  | .trap message state => ∃ y, Reaches f x y ∧ step f y = .exception message state

section Steps

variable {x y : Activation σ} {p q mid : List UInt8} {csp csp' : List Label} {o o' : Outcome σ} {state : σ}
  {stack stack' : List UInt32} {cache : Cache} {label : Label} {target depth : ℕ} {opcode : UInt8} {c : Control}

private theorem Simulates.of_reaches (h : Simulates f y p csp o) (hxy : Reaches f x y) : Simulates f x p csp o := by
  cases o with
  | fall state stack =>
    obtain ⟨cache,hcache,hy⟩ := h
    exact ⟨cache,hcache,hxy.trans hy⟩
  | branch depth state stack =>
    intro label csp' target stack' hdrop htarget hunwind
    obtain ⟨cache,hcache,hy⟩ := h label csp' target stack' hdrop htarget hunwind
    exact ⟨cache,hcache,hxy.trans hy⟩
  | return_ state stack =>
    obtain ⟨z,hy,hz⟩ := h
    exact ⟨z,hxy.trans hy,hz⟩
  | trap message state =>
    obtain ⟨z,hy,hz⟩ := h
    exact ⟨z,hxy.trans hy,hz⟩

private theorem Simulates.of_step (h : Simulates f y p csp o) (hxy : step f x = .go y) : Simulates f x p csp o :=
  h.of_reaches (.single hxy)

theorem step_control (hip : x.ip = f.code.addr (opcode::p)) (h : opcode::p <:+ f.code.bytes)
    (hc : control opcode = some c) : step f x = handle f x p c := by
  unfold step
  rw [hip,f.code.bytesAt_addr h]
  simp only [hc]

private theorem control_encoded {bs : List UInt8} (h : Encoded opcode bs) : control opcode = none := by
  have hall : ∀ k : Fin 256, let b := UInt8.ofFin k; (operands b).isSome ∨ b = opMiscPrefix →
      (control b).isNone := by
    decide +kernel
  have hnone := hall opcode.toFin
  cases h with
  | plain os chunks hopcode hchunks =>
    have hsome : (operands opcode).isSome := by rw [hopcode]; rfl
    exact Option.isNone_iff_eq_none.mp (hnone (.inl hsome))
  | misc leb opcode1 os chunks hopcode hleb hvalue hos hchunks =>
    exact Option.isNone_iff_eq_none.mp (hnone (.inr hopcode))

private theorem take_operands (i : Plain) (p : List UInt8) :
    (i.operands ++ p).take ((i.operands ++ p).length - p.length) = i.operands := by
  rw [List.length_append,Nat.add_sub_cancel,List.take_left]

private theorem step_plain {i : Plain} {state : σ} (hip : x.ip = f.code.addr (i.opcode::(i.operands ++ p)))
    (h : i.opcode::(i.operands ++ p) <:+ f.code.bytes)
    (hop : f.operate (i.opcode::i.operands) x.state x.stack = .ok (state, stack)) :
    step f x = .go ⟨f.code.addr p, state, stack, x.csp,
      x.cache.search f.code (f.searches (i.opcode::i.operands) x.state x.stack)⟩ := by
  unfold step
  rw [hip,f.code.bytesAt_addr h]
  simp only [control_encoded i.encoded,(i.encoded.agrees p).1,take_operands,hop]

private theorem step_plain_error {i : Plain} {message : String}
    (hip : x.ip = f.code.addr (i.opcode::(i.operands ++ p)))
    (h : i.opcode::(i.operands ++ p) <:+ f.code.bytes)
    (hop : f.operate (i.opcode::i.operands) x.state x.stack = .error (message, state)) :
    step f x = .exception message state := by
  unfold step
  rw [hip,f.code.bytesAt_addr h]
  simp only [control_encoded i.encoded,(i.encoded.agrees p).1,take_operands,hop]

theorem Leb32.read (l : Leb32) (p : List UInt8) : readLebUint32 (l.bytes ++ p) = some (l.value, p) :=
  readLebUint32_of_loader (readLebUint32_iff.mpr ⟨l.bytes,rfl,l.encodes,l.value_eq⟩)

/-- A branch finds its label's target, by a search if need be. -/
theorem popCspN_target {a : Activation σ} (hcache : a.cache.Right f.code) (hdrop : a.csp.drop depth = label::csp')
    (htarget : Target f label target) (hunwind : unwind label.frameSp label.cellNum a.stack = some stack') :
    ∃ cache, cache.Right f.code ∧ popCspN f a depth = .go ⟨target, a.state, stack', label::csp', cache⟩ := by
  unfold popCspN
  rw [hdrop]
  simp only [hunwind]
  rcases htarget with ⟨rfl,hne⟩ | ⟨hnull,hbegin,elseAddr,hat⟩
  · rw [if_neg hne]
    exact ⟨a.cache,hcache,rfl⟩
  · have hright := findBlockAddr_right hcache label.beginAddr false
    have hfound := findBlockAddr_spec hcache hbegin false
    rw [if_pos hnull]
    split
    next heq =>
      rw [heq] at hfound
      exact absurd (hat.symm.trans hfound) (by simp)
    next heq =>
      rw [heq] at hfound
      exact absurd (hat.symm.trans hfound) (by simp)
    next found cache heq =>
      rw [heq] at hfound hright
      obtain ⟨_,hat',-⟩ := hfound
      obtain ⟨-,rfl⟩ := Prod.mk.inj (Except.ok.inj (hat.symm.trans hat'))
      exact ⟨cache,hright,rfl⟩

private theorem simulates_branch (hcache : cache.Right f.code)
    (hstep : step f x = popCspN f ⟨x.ip, state, stack, csp, cache⟩ depth) :
    Simulates f x p csp (.branch depth state stack) := by
  intro label csp' target stack' hdrop htarget hunwind
  obtain ⟨cache',hcache',hpop⟩ := popCspN_target (a := ⟨x.ip, state, stack, csp, cache⟩) hcache hdrop htarget hunwind
  exact ⟨cache',hcache',.single (hstep.trans hpop)⟩

private theorem reaches_end (h : opEnd::p <:+ f.code.bytes) (hcsp : csp ≠ []) :
    Reaches f ⟨f.code.addr (opEnd::p), state, stack, label::csp, cache⟩ ⟨f.code.addr p, state, stack, csp, cache⟩ := by
  obtain ⟨outer,csp,rfl⟩ := List.exists_cons_of_ne_nil hcsp
  apply Relation.ReflTransGen.single
  exact step_control rfl h rfl

theorem Simulates.leave (h : Simulates f x mid (label::csp) o) (hend : opEnd::p <:+ f.code.bytes) (hcsp : csp ≠ [])
    (htarget : ∀ state stack, o = .branch 0 state stack → Target f label (f.code.addr (opEnd::p)))
    (hmid : ∀ state stack cache, Reaches f ⟨f.code.addr mid, state, stack, label::csp, cache⟩
      ⟨f.code.addr (opEnd::p), state, stack, label::csp, cache⟩)
    (ho : o.leave label.frameSp label.cellNum = some o') : Simulates f x p csp o' := by
  cases o with
  | fall state stack =>
    obtain rfl := Option.some.inj ho
    obtain ⟨cache,hcache,hx⟩ := h
    exact ⟨cache,hcache,(hx.trans (hmid state stack cache)).trans (reaches_end hend hcsp)⟩
  | branch depth state stack =>
    cases depth with
    | zero =>
      obtain ⟨stack',hunwind,rfl⟩ := Option.map_eq_some_iff.mp ho
      obtain ⟨cache,hcache,hx⟩ := h label csp _ stack' rfl (htarget state stack rfl) hunwind
      exact ⟨cache,hcache,hx.trans (reaches_end hend hcsp)⟩
    | succ depth =>
      obtain rfl := Option.some.inj ho
      exact h
  | return_ state stack =>
    obtain rfl := Option.some.inj ho
    exact h
  | trap message state =>
    obtain rfl := Option.some.inj ho
    exact h

theorem Simulates.andThen {k : σ → List UInt32 → Option (Outcome σ)} (h : Simulates f x p csp o)
    (ho : o.andThen k = some o') (hk : ∀ state stack cache, cache.Right f.code → k state stack = some o' →
      Simulates f ⟨f.code.addr p, state, stack, csp, cache⟩ q csp o') : Simulates f x q csp o' := by
  cases o with
  | fall state stack =>
    obtain ⟨cache,hcache,hx⟩ := h
    exact (hk state stack cache hcache ho).of_reaches hx
  | branch depth state stack =>
    obtain rfl := Option.some.inj ho
    exact h
  | return_ state stack =>
    obtain rfl := Option.some.inj ho
    exact h
  | trap message state =>
    obtain rfl := Option.some.inj ho
    exact h

private theorem BrTable.clamp (t : BrTable) (lidx : UInt32) :
    (if lidx > t.count.value then t.count.value else lidx).toNat = min lidx.toNat t.count.value.toNat := by
  split
  next h =>
    have hlt := UInt32.lt_iff_toNat_lt.mp h
    omega
  next h =>
    have hle := mt UInt32.lt_iff_toNat_lt.mpr h
    omega

private theorem BrTable.clamp_lt (t : BrTable) (lidx : UInt32) :
    min lidx.toNat t.count.value.toNat < t.depths.length := by
  rw [t.length_depths]
  omega

theorem step_brTable {t : BrTable} {lidx : UInt32} {depth : UInt8} (hip : x.ip = f.code.addr (t.encode ++ p))
    (h : t.encode ++ p <:+ f.code.bytes) (hstack : x.stack = lidx::stack)
    (hdepth : t.depths[min lidx.toNat t.count.value.toNat]? = some depth) :
    step f x = popCspN f { x with stack := stack } depth.toNat := by
  rw [BrTable.encode,List.cons_append,List.append_assoc] at hip h
  have hstep := step_control hip h rfl
  simp only [handle,t.count.read,hstack] at hstep
  rw [List.append_assoc,t.clamp,List.getElem?_append_left (t.clamp_lt lidx),hdepth] at hstep
  exact hstep

private theorem step_start {shortOp extOp : UInt8} (kind : Bool → Control)
    (hshort : control shortOp = some (kind false))
    (hext : control extOp = some (kind true)) {t : BlockType}
    (hip : x.ip = f.code.addr (t.encode shortOp extOp ++ p)) (h : t.encode shortOp extOp ++ p <:+ f.code.bytes) :
    ∃ ext q, readBlockType f ext q = some (t.type f, p) ∧ step f x = handle f x q (kind ext) := by
  cases t with
  | short valueType => exact ⟨false,valueType::p,rfl,step_control hip h hshort⟩
  | ext typeIndex =>
    refine ⟨true,typeIndex.bytes ++ p,?_,step_control hip h hext⟩
    change (readLebUint32 (typeIndex.bytes ++ p)).map _ = _
    rw [typeIndex.read]
    rfl

private theorem cachedEnd_target (h : cache.Right f.code) {a elseAddr endAddr : ℕ} (frameSp cellNum : ℕ) (ha : a ≠ 0)
    (hend : endAddr ≠ 0) (hat : blockAt f.code a = .ok (elseAddr, endAddr)) :
    Target f ⟨a, cachedEnd cache a, frameSp, cellNum⟩ endAddr := by
  have hthere := h (a % blockAddrCacheSize)
  unfold cachedEnd
  simp only
  split
  next heq =>
    have hright := hthere.1 (by rw [heq]; exact ha)
    rw [heq,hat] at hright
    exact .inl ⟨(Prod.mk.inj (Except.ok.inj hright)).2.symm,hend⟩
  next =>
    split
    next heq =>
      have hright := hthere.2 (by rw [heq]; exact ha)
      rw [heq,hat] at hright
      exact .inl ⟨(Prod.mk.inj (Except.ok.inj hright)).2.symm,hend⟩
    next => exact .inr ⟨rfl,ha,elseAddr,hat⟩

private theorem findBlockAddr_if (h : cache.Right f.code) {a elseAddr endAddr : ℕ} (ha : a ≠ 0)
    (hat : blockAt f.code a = .ok (elseAddr, endAddr)) :
    ∃ cache', cache'.Right f.code ∧
      findBlockAddr f.code cache a true = (.ok ⟨some elseAddr, endAddr⟩, cache') := by
  have hright := findBlockAddr_right h a true
  have hfound := findBlockAddr_spec h ha true
  cases hfind : findBlockAddr f.code cache a true with
  | mk r cache' =>
    rw [hfind] at hright hfound
    cases r with
    | error e => exact absurd (hat.symm.trans hfound) (by simp)
    | ok found =>
      obtain ⟨elseAddr',hat',helse⟩ := hfound
      obtain ⟨rfl,hend⟩ := Prod.mk.inj (Except.ok.inj (hat.symm.trans hat'))
      obtain ⟨foundElse,foundEnd⟩ := found
      have helse' : foundElse = some elseAddr := helse.resolve_right (by simp)
      have hend' : endAddr = foundEnd := hend
      rw [helse',hend']
      exact ⟨cache',hright,rfl⟩

end Steps

section Runs

variable {fuel : ℕ} {p mid : List UInt8} {csp : List Label} {o : Outcome σ} {state : σ} {stack : List UInt32}
  {cache : Cache} {label : Label} {body k : Seq} {t : BlockType} {type : WasmType}

def SimulatesAt (f : Function σ) (fuel : ℕ) : Prop :=
  ∀ (s : Seq) (state : σ) (stack : List UInt32) (o : Outcome σ), eval f fuel s state stack = some o →
    ∀ (p : List UInt8) (csp : List Label) (cache : Cache), s.encode ++ p <:+ f.code.bytes → csp ≠ [] →
      cache.Right f.code → Simulates f ⟨f.code.addr (s.encode ++ p), state, stack, csp, cache⟩ p csp o

def LoopsAt (f : Function σ) (fuel : ℕ) : Prop :=
  ∀ (t : BlockType) (body k : Seq) (state : σ) (stack : List UInt32) (o : Outcome σ),
    eval f fuel (.loop t body k) state stack = some o →
    ∀ (p : List UInt8) (csp : List Label) (cache : Cache),
      body.encode ++ opEnd::(k.encode ++ p) <:+ f.code.bytes → csp ≠ [] → cache.Right f.code →
      let a := f.code.addr (body.encode ++ opEnd::(k.encode ++ p))
      Simulates f ⟨a, state, stack,
        ⟨a, a, stack.length - (t.type f).paramCellNum, (t.type f).paramCellNum⟩::csp, cache⟩ p csp o

theorem SimulatesAt.block (ih : SimulatesAt f fuel)
    (hrun : runBlock type stack (eval f fuel body state) (eval f fuel k) = some o)
    (hbody : body.encode ++ mid <:+ f.code.bytes) (hend : opEnd::(k.encode ++ p) <:+ f.code.bytes) (hcsp : csp ≠ [])
    (hcache : cache.Right f.code) (hsp : label.frameSp = stack.length - type.paramCellNum)
    (hcells : label.cellNum = type.retCellNum) (htarget : Target f label (f.code.addr (opEnd::(k.encode ++ p))))
    (hmid : ∀ state stack cache, Reaches f ⟨f.code.addr mid, state, stack, label::csp, cache⟩
      ⟨f.code.addr (opEnd::(k.encode ++ p)), state, stack, label::csp, cache⟩) :
    Simulates f ⟨f.code.addr (body.encode ++ mid), state, stack, label::csp, cache⟩ p csp o := by
  unfold runBlock at hrun
  split at hrun
  next =>
    obtain ⟨o₁,ho₁,hrun⟩ := Option.bind_eq_some_iff.mp hrun
    obtain ⟨o₂,ho₂,hrun⟩ := Option.bind_eq_some_iff.mp hrun
    rw [← hsp,← hcells] at ho₂
    have hin := ih body state stack o₁ ho₁ mid (label::csp) cache hbody (List.cons_ne_nil _ _) hcache
    have hout := hin.leave hend hcsp (fun _ _ _ => htarget) hmid ho₂
    apply hout.andThen hrun
    intro state' stack' cache' hcache' hk
    exact ih k state' stack' o hk p csp cache' ((List.suffix_cons _ _).trans hend) hcsp hcache'
  next => exact absurd hrun (by simp)

private theorem runBlock_params (hrun : runBlock type stack (eval f fuel body state) (eval f fuel k) = some o) :
    type.paramCellNum ≤ stack.length := by
  unfold runBlock at hrun
  split at hrun
  next h => exact h
  next => exact absurd hrun (by simp)

private theorem runLoop_params {again k : σ → List UInt32 → Option (Outcome σ)}
    {run : List UInt32 → Option (Outcome σ)}
    (hrun : runLoop type stack run again k = some o) : type.paramCellNum ≤ stack.length := by
  unfold runLoop at hrun
  split at hrun
  next h => exact h
  next => exact absurd hrun (by simp)

private theorem unwind_length {frameSp cellNum : ℕ} {stack stack' : List UInt32}
    (h : unwind frameSp cellNum stack = some stack') : stack'.length = frameSp + cellNum := by
  unfold unwind at h
  split at h
  next hle =>
    obtain rfl := Option.some.inj h
    rw [List.length_append,List.length_take,List.length_drop]
    omega
  next => exact absurd h (by simp)

theorem LoopsAt.zero (f : Function σ) : LoopsAt f 0 := by
  intro t body k state stack o hrun
  exact absurd hrun (by simp [eval])

theorem LoopsAt.succ (ih : SimulatesAt f fuel) (ihloop : LoopsAt f fuel) : LoopsAt f (fuel + 1) := by
  intro t body k state stack o hrun p csp cache hcode hcsp hcache a
  change runLoop (t.type f) stack (eval f fuel body state) (eval f fuel (.loop t body k)) (eval f fuel k) = some o at hrun
  have hend : opEnd::(k.encode ++ p) <:+ f.code.bytes := (List.suffix_append _ _).trans hcode
  unfold runLoop at hrun
  split at hrun
  next hparams =>
    obtain ⟨o₁,ho₁,hrun⟩ := Option.bind_eq_some_iff.mp hrun
    have hin := ih body state stack o₁ ho₁ (opEnd::(k.encode ++ p))
      (⟨a, a, stack.length - (t.type f).paramCellNum, (t.type f).paramCellNum⟩::csp) cache hcode
      (List.cons_ne_nil _ _) hcache
    by_cases hagain : ∃ state' stack', o₁ = .branch 0 state' stack'
    · obtain ⟨state',stack',rfl⟩ := hagain
      obtain ⟨stack'',hunwind,hrun⟩ := Option.bind_eq_some_iff.mp hrun
      have hpos : a ≠ 0 := (f.code.addr_pos hcode).ne'
      obtain ⟨cache',hcache',hx⟩ := hin _ csp a stack'' rfl (.inl ⟨rfl,hpos⟩) hunwind
      have hnext := ihloop t body k state' stack'' o hrun p csp cache' hcode hcsp hcache'
      have hlength := unwind_length hunwind
      have hsp : stack''.length - (t.type f).paramCellNum = stack.length - (t.type f).paramCellNum := by omega
      simp only [hsp] at hnext
      exact hnext.of_reaches hx
    · have hrun' : (o₁.leave (stack.length - (t.type f).paramCellNum) (t.type f).paramCellNum).bind
          (Outcome.andThen (eval f fuel k)) = some o := by
        cases o₁ with
        | branch depth state' stack' =>
          cases depth with
          | zero => exact absurd ⟨state',stack',rfl⟩ hagain
          | succ depth => exact hrun
        | fall state' stack' => exact hrun
        | return_ state' stack' => exact hrun
        | trap message state' => exact hrun
      obtain ⟨o₂,ho₂,hrun⟩ := Option.bind_eq_some_iff.mp hrun'
      have hout := hin.leave hend hcsp (fun state' stack' heq => absurd ⟨state',stack',heq⟩ hagain)
        (fun _ _ _ => .refl) ho₂
      apply hout.andThen hrun
      intro state' stack' cache' hcache' hk
      exact ih k state' stack' o hk p csp cache' ((List.suffix_cons _ _).trans hend) hcsp hcache'
  next => exact absurd hrun (by simp)

theorem SimulatesAt.zero (f : Function σ) : SimulatesAt f 0 := by
  intro s state stack o hrun
  exact absurd hrun (by simp [eval])

private theorem handleIf_then {type : WasmType} {a : Activation σ} {cond : UInt32} {ip elseAddr endAddr : ℕ}
    (hcache : a.cache.Right f.code) (hstack : a.stack = cond::stack) (hip : ip ≠ 0)
    (hat : blockAt f.code ip = .ok (elseAddr, endAddr)) (hparams : type.paramCellNum ≤ stack.length)
    (hpush : cond ≠ 0 ∨ elseAddr ≠ 0) : ∃ cache', cache'.Right f.code ∧ handleIf f a type ip =
      .go ⟨if cond ≠ 0 then ip else elseAddr + 1, a.state, stack,
        ⟨ip, endAddr, stack.length - type.paramCellNum, type.retCellNum⟩::a.csp, cache'⟩ := by
  obtain ⟨cache',hcache',hfind⟩ := findBlockAddr_if hcache hip hat
  refine ⟨cache',hcache',?_⟩
  unfold handleIf
  rw [hfind]
  simp only [hstack,Option.getD_some]
  by_cases hcond : cond ≠ 0
  · rw [if_pos hcond,if_pos hcond,pushCsp,if_pos hparams]
  · rw [if_neg hcond,if_neg hcond,if_neg (hpush.resolve_left hcond),pushCsp,if_pos hparams]

private theorem handleIf_skip (type : WasmType) {a : Activation σ} {ip endAddr : ℕ} (hcache : a.cache.Right f.code)
    (hstack : a.stack = 0::stack) (hip : ip ≠ 0) (hat : blockAt f.code ip = .ok (0, endAddr)) :
    ∃ cache', cache'.Right f.code ∧
      handleIf f a type ip = .go ⟨endAddr + 1, a.state, stack, a.csp, cache'⟩ := by
  obtain ⟨cache',hcache',hfind⟩ := findBlockAddr_if hcache hip hat
  refine ⟨cache',hcache',?_⟩
  unfold handleIf
  rw [hfind]
  simp only [hstack,Option.getD_some]
  rfl

theorem SimulatesAt.succ (ih : SimulatesAt f fuel) (ihloop : LoopsAt f (fuel + 1)) : SimulatesAt f (fuel + 1) := by
  intro s state stack o hrun p csp cache hcode hcsp hcache
  obtain ⟨x,hx⟩ : ∃ x : Activation σ, x = ⟨f.code.addr (s.encode ++ p), state, stack, csp, cache⟩ := ⟨_,rfl⟩
  rw [← hx]
  have hip : x.ip = f.code.addr (s.encode ++ p) := by rw [hx]
  cases s with
  | done =>
    obtain rfl := Option.some.inj hrun
    rw [hx]
    exact ⟨cache,hcache,.refl⟩
  | nop k =>
    have hstep := step_control hip hcode rfl
    rw [hx] at hstep ⊢
    exact (ih k state stack o hrun p csp cache ((List.suffix_cons _ _).trans hcode) hcsp hcache).of_step hstep
  | unreachable k =>
    have hstep := step_control hip hcode rfl
    rw [hx] at hstep ⊢
    obtain rfl := Option.some.inj hrun
    exact ⟨_,.refl,hstep⟩
  | return_ k =>
    have hstep := step_control hip hcode rfl
    rw [hx] at hstep ⊢
    obtain rfl := Option.some.inj hrun
    exact ⟨_,.refl,hstep⟩
  | plain i k =>
    rw [Seq.encode,List.cons_append,List.append_assoc] at hcode hip
    have hrest := ((List.suffix_append _ _).trans (List.suffix_cons _ _)).trans hcode
    rw [eval] at hrun
    split at hrun
    next message state' hop =>
      have hop' : f.operate (i.opcode::i.operands) x.state x.stack = .error (message, state') := by rw [hx]; exact hop
      obtain rfl := Option.some.inj hrun
      exact ⟨_,.refl,step_plain_error hip hcode hop'⟩
    next state' stack' hop =>
      have hop' : f.operate (i.opcode::i.operands) x.state x.stack = .ok (state', stack') := by rw [hx]; exact hop
      have hstep := step_plain hip hcode hop'
      rw [hx] at hstep ⊢
      exact (ih k state' stack' o hrun p csp _ hrest hcsp (hcache.search _)).of_step hstep
  | block t body k =>
    rw [Seq.encode,List.append_assoc,List.append_assoc,List.cons_append] at hcode hip
    change runBlock (t.type f) stack (eval f fuel body state) (eval f fuel k) = some o at hrun
    have hbody := (List.suffix_append _ _).trans hcode
    have hend := (List.suffix_append _ _).trans hbody
    obtain ⟨ext,q,hread,hstep⟩ := step_start Control.block rfl rfl hip hcode
    rw [hx] at hstep ⊢
    simp only [handle,hread,pushCsp,if_pos (runBlock_params hrun)] at hstep
    have htarget := cachedEnd_target hcache (stack.length - (t.type f).paramCellNum) (t.type f).retCellNum
      (f.code.addr_pos hbody).ne' (f.code.addr_pos hend).ne' (blockAt_body hbody)
    exact (ih.block hrun hbody hend hcsp hcache rfl rfl htarget fun _ _ _ => .refl).of_step hstep
  | loop t body k =>
    rw [Seq.encode,List.append_assoc,List.append_assoc,List.cons_append] at hcode hip
    have hbody := (List.suffix_append _ _).trans hcode
    obtain ⟨ext,q,hread,hstep⟩ := step_start Control.loop rfl rfl hip hcode
    rw [hx] at hstep ⊢
    simp only [handle,hread,pushCsp,if_pos (runLoop_params hrun)] at hstep
    exact (ihloop t body k state stack o hrun p csp cache hbody hcsp hcache).of_step hstep
  | if_ t body k =>
    cases stack with
    | nil => exact absurd hrun (by simp [eval])
    | cons cond stack =>
      rw [Seq.encode,List.append_assoc,List.append_assoc,List.cons_append] at hcode hip
      have hbody := (List.suffix_append _ _).trans hcode
      have hend := (List.suffix_append _ _).trans hbody
      have hbegin := (f.code.addr_pos hbody).ne'
      have hat := blockAt_body hbody
      have hxcache : x.cache.Right f.code := by rw [hx]; exact hcache
      have hxstack : x.stack = cond::stack := by rw [hx]
      obtain ⟨ext,q,hread,hstep⟩ := step_start Control.if_ rfl rfl hip hcode
      simp only [handle,hread] at hstep
      change (if cond ≠ 0 then runBlock (t.type f) stack (eval f fuel body state) (eval f fuel k)
        else eval f fuel k state stack) = some o at hrun
      by_cases hcond : cond ≠ 0
      · rw [if_pos hcond] at hrun
        obtain ⟨cache',hcache',hhandle⟩ := handleIf_then hxcache hxstack hbegin hat (runBlock_params hrun) (.inl hcond)
        rw [if_pos hcond] at hhandle
        rw [hhandle,hx] at hstep
        rw [hx]
        exact (ih.block hrun hbody hend hcsp hcache' rfl rfl (.inl ⟨rfl,(f.code.addr_pos hend).ne'⟩)
          fun _ _ _ => .refl).of_step hstep
      · rw [if_neg hcond] at hrun
        obtain rfl := not_not.mp hcond
        obtain ⟨cache',hcache',hhandle⟩ := handleIf_skip (t.type f) hxcache hxstack hbegin hat
        rw [hhandle,hx,← Code.addr_cons hend] at hstep
        rw [hx]
        exact (ih k state stack o hrun p csp cache' ((List.suffix_cons _ _).trans hend) hcsp hcache').of_step hstep
  | ifElse t body₁ body₂ k =>
    cases stack with
    | nil => exact absurd hrun (by simp [eval])
    | cons cond stack =>
      rw [Seq.encode,List.append_assoc,List.append_assoc,List.cons_append,List.append_assoc,List.cons_append] at hcode hip
      have hbody₁ := (List.suffix_append _ _).trans hcode
      have helse := (List.suffix_append _ _).trans hbody₁
      have hbody₂ := (List.suffix_cons _ _).trans helse
      have hend := (List.suffix_append _ _).trans hbody₂
      have hbegin := (f.code.addr_pos hbody₁).ne'
      have hat := blockAt_ifElse hbody₁
      have hxcache : x.cache.Right f.code := by rw [hx]; exact hcache
      have hxstack : x.stack = cond::stack := by rw [hx]
      obtain ⟨ext,q,hread,hstep⟩ := step_start Control.if_ rfl rfl hip hcode
      simp only [handle,hread] at hstep
      change runBlock (t.type f) stack (eval f fuel (if cond ≠ 0 then body₁ else body₂) state) (eval f fuel k) =
        some o at hrun
      obtain ⟨cache',hcache',hhandle⟩ := handleIf_then hxcache hxstack hbegin hat (runBlock_params hrun)
        (.inr (f.code.addr_pos helse).ne')
      rw [hhandle,hx] at hstep
      rw [hx]
      apply Simulates.of_step _ hstep
      by_cases hcond : cond ≠ 0
      · rw [if_pos hcond] at hrun ⊢
        apply ih.block hrun hbody₁ hend hcsp hcache' rfl rfl (.inl ⟨rfl,(f.code.addr_pos hend).ne'⟩)
        intro state' stack' cache''
        -- the `else` at the end of the first body goes to the end
        exact .single (step_control rfl helse rfl)
      · rw [if_neg hcond] at hrun ⊢
        rw [← Code.addr_cons helse]
        exact ih.block hrun hbody₂ hend hcsp hcache' rfl rfl (.inl ⟨rfl,(f.code.addr_pos hend).ne'⟩)
          fun _ _ _ => .refl
  | br depth k =>
    rw [Seq.encode,List.cons_append,List.append_assoc] at hcode hip
    obtain rfl := Option.some.inj hrun
    have hstep := step_control hip hcode rfl
    rw [handle,depth.read,hx] at hstep
    rw [hx]
    exact simulates_branch hcache hstep
  | brIf depth k =>
    cases stack with
    | nil => exact absurd hrun (by simp [eval])
    | cons cond stack =>
      rw [Seq.encode,List.cons_append,List.append_assoc] at hcode hip
      have hstep := step_control hip hcode rfl
      rw [hx] at hstep ⊢
      simp only [handle,depth.read] at hstep
      change (if cond ≠ 0 then some (.branch depth.value.toNat state stack) else eval f fuel k state stack) =
        some o at hrun
      by_cases hcond : cond ≠ 0
      · rw [if_pos hcond] at hrun hstep
        obtain rfl := Option.some.inj hrun
        exact simulates_branch hcache hstep
      · rw [if_neg hcond] at hrun hstep
        have hrest := ((List.suffix_append _ _).trans (List.suffix_cons _ _)).trans hcode
        exact (ih k state stack o hrun p csp cache hrest hcsp hcache).of_step hstep
  | brTable t k =>
    cases stack with
    | nil => exact absurd hrun (by simp [eval])
    | cons lidx stack =>
      rw [Seq.encode,List.append_assoc] at hcode hip
      obtain ⟨depth,hdepth,rfl⟩ := Option.map_eq_some_iff.mp hrun
      have hxstack : x.stack = lidx::stack := by rw [hx]
      have hstep := step_brTable hip hcode hxstack hdepth
      rw [hx] at hstep ⊢
      exact simulates_branch hcache hstep

private theorem simulatesAt (f : Function σ) (fuel : ℕ) : SimulatesAt f fuel ∧ LoopsAt f fuel := by
  induction fuel with
  | zero => exact ⟨.zero f,.zero f⟩
  | succ fuel ih =>
    have hloops := LoopsAt.succ ih.1 ih.2
    exact ⟨ih.1.succ hloops,hloops⟩

end Runs

section Functions

variable {x y : Activation σ} {o : Outcome σ} {next : Next σ} {state : σ} {stack : List UInt32}
  {cache : Cache} {label : Label} {p : List UInt8}

theorem Reaches.interpret (h : Reaches f x y) (hy : step f y = next) (hstop : ∀ a, next ≠ .go a) :
    ∃ fuel, interpret f fuel x = next := by
  induction h using Relation.ReflTransGen.head_induction_on with
  | refl =>
    refine ⟨1,?_⟩
    rw [Interp.interpret,hy]
    cases next with
    | go a => exact absurd rfl (hstop a)
    | returned state cells => rfl
    | exception message state => rfl
    | outside => rfl
  | head hstep _ ih =>
    obtain ⟨fuel,hfuel⟩ := ih
    refine ⟨fuel + 1,?_⟩
    rw [Interp.interpret,hstep]
    exact hfuel

private theorem step_last (h : opEnd::p <:+ f.code.bytes) :
    step f ⟨f.code.addr (opEnd::p), state, stack, [label], cache⟩ = finish f state stack :=
  step_control rfl h rfl

/-- The interpreter comes to an instruction that ends the function. -/
def Finishes (f : Function σ) (x : Activation σ) (state : σ) (stack : List UInt32) : Prop :=
  ∃ y, Reaches f x y ∧ step f y = finish f state stack

/-- The interpreter comes to the end of the function with such an outcome. -/
def Ends (f : Function σ) (x : Activation σ) : Outcome σ → Prop
  | .fall state stack => Finishes f x state stack
  | .branch _ _ _ => True
  | .return_ state stack => Finishes f x state stack
  | .trap message state => ∃ y, Reaches f x y ∧ step f y = .exception message state

theorem Simulates.function (hsim : Simulates f x (opEnd::p) [label] o) (hend : opEnd::p <:+ f.code.bytes)
    (htarget : label.targetAddr = f.code.addr (opEnd::p)) (hsp : label.frameSp = 0)
    (hcells : label.cellNum = f.retCellNum) {o' : Outcome σ} (ho : o.leave 0 f.retCellNum = some o') :
    Ends f x o' := by
  cases o with
  | fall state stack =>
    obtain rfl := Option.some.inj ho
    obtain ⟨cache,-,hx⟩ := hsim
    exact ⟨_,hx,step_last hend⟩
  | branch depth state stack =>
    cases depth with
    | zero =>
      obtain ⟨stack',hunwind,rfl⟩ := Option.map_eq_some_iff.mp ho
      rw [← hsp,← hcells] at hunwind
      obtain ⟨cache,-,hx⟩ := hsim label [] _ stack' rfl (.inl ⟨htarget,(f.code.addr_pos hend).ne'⟩) hunwind
      exact ⟨_,hx,step_last hend⟩
    | succ depth =>
      obtain rfl := Option.some.inj ho
      trivial
  | return_ state stack =>
    obtain rfl := Option.some.inj ho
    exact hsim
  | trap message state =>
    obtain rfl := Option.some.inj ho
    exact hsim

theorem Finishes.returned {result : Next σ} (h : Finishes f x state stack)
    (hresult : (if f.retCellNum ≤ stack.length then some (Next.returned state (stack.take f.retCellNum)) else none) =
      some result) : ∃ fuel, interpret f fuel x = result := by
  obtain ⟨y,hy,hlast⟩ := h
  split at hresult
  next hle =>
    obtain rfl := Option.some.inj hresult
    rw [finish,if_pos hle] at hlast
    exact hy.interpret hlast (by simp)
  next => exact absurd hresult (by simp)

/-- What structured code gives for a call, the interpreter gives, after any searches. -/
theorem interpret_eval (f : Function σ) (searches : List (ℕ × Bool)) (fuel : ℕ) (body : Seq) {p : List UInt8} {state : σ}
    {result : Next σ} (hcode : body.encode ++ opEnd::p <:+ f.code.bytes)
    (h : evalFunction f fuel body state = some result) : ∃ fuel', interpret f fuel'
      (start f (body.encode ++ opEnd::p) (f.code.addr (opEnd::p)) state (cacheAfter f.code searches)) = result := by
  have hend := (List.suffix_append _ _).trans hcode
  obtain ⟨o,ho,h⟩ := Option.bind_eq_some_iff.mp h
  obtain ⟨o',ho',h⟩ := Option.bind_eq_some_iff.mp h
  have hsim := (simulatesAt f fuel).1 body state [] o ho (opEnd::p)
    [⟨f.code.addr (body.encode ++ opEnd::p), f.code.addr (opEnd::p), 0, f.retCellNum⟩] (cacheAfter f.code searches)
    hcode (List.cons_ne_nil _ _) (cacheAfter_right f.code searches)
  have hrun := hsim.function hend rfl rfl rfl ho'
  cases o' with
  | fall state stack => exact hrun.returned h
  | return_ state stack => exact hrun.returned h
  | trap message state =>
    obtain ⟨y,hy,hlast⟩ := hrun
    obtain rfl := Option.some.inj h
    exact hy.interpret hlast (by simp)
  | branch depth state stack => exact absurd h (by simp)

def outermost : Leb32 :=
  ⟨[0], 0, ⟨.last (by decide), by decide, (by decide : unsigned [0] < 2 ^ 32)⟩, rfl⟩

def constFive : Plain where
  opcode := 0x41
  operands := [5]
  encoded := .plain [.leb .int32] [[5]] rfl (.cons ⟨.last (by decide),by decide,
    (by decide : (-2 ^ 31 : ℤ) ≤ signed [5] ∧ signed [5] < 2 ^ 31)⟩ .nil)

def fiveFunction : Function Unit where
  code := ⟨64, [opBlock, 0x7f, 0x41, 5, opBr, 0, opEnd, opEnd], by decide⟩
  wasmTypes _ := ⟨0, 0⟩
  brTableCacheList := []
  retCellNum := 1
  operate
    | [0x41, value], state, stack => .ok (state, value.toUInt32::stack)
    | _, state, _ => .error ("unsupported opcode", state)
  searches _ _ _ := [(66, false)]

theorem interpret_eval_five : ∃ fuel, interpret fiveFunction fuel
    (start fiveFunction fiveFunction.code.bytes 71 () (cacheAfter fiveFunction.code [(66, false)])) =
      .returned () [5] :=
  interpret_eval fiveFunction [(66, false)] 4 (.block (.short 0x7f) (.plain constFive (.br outermost .done)) .done)
    List.suffix_rfl rfl

end Functions

end WamrTest.Interp
