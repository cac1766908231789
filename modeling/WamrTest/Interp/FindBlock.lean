import Mathlib.Logic.Function.Basic
import WamrTest.Framework.Run
import WamrTest.Interp.Opcode

/-!
# `wasm_loader_find_block_addr`

The search for the `else` and the `end` of a block, and the cache of the blocks that earlier searches
have passed. Whatever was searched before, a search finds what it would find without the cache.
-/

namespace WamrTest.Interp

open Transition

/-- `BlockAddr`; 0 is `NULL`. -/
structure BlockAddr where
  startAddr : ℕ
  elseAddr : ℕ
  endAddr : ℕ
deriving DecidableEq

def BlockAddr.null : BlockAddr := ⟨0, 0, 0⟩

def blockAddrCacheSize : ℕ := 64

def blockStackSize : ℕ := 16

/-- The two entries for the addresses with some low bits. -/
abbrev Cache := ℕ → BlockAddr × BlockAddr

def Cache.empty : Cache := fun _ => (.null, .null)

/-- The loop's variables but for `p`. -/
structure Scan where
  blockNestedDepth : ℕ
  elseAddr : ℕ
  blockStack : ℕ → BlockAddr

/-- Changes an entry of `block_stack`, if there is one at this depth. -/
def Scan.update (s : Scan) (t : ℕ) (f : BlockAddr → BlockAddr) : ℕ → BlockAddr :=
  if t < blockStackSize then Function.update s.blockStack t (f (s.blockStack t)) else s.blockStack

/-- The loop; `isIf` says that the label's type is `LABEL_TYPE_IF`. It ends at the block's end with the
address of this end. -/
def scan (c : Code) (isIf : Bool) : ℕ → List UInt8 → Scan → Except Stop (Scan × ℕ)
  | 0, _, _ => .error .outside
  | fuel+1, p, s =>
    match token p with
    | .error e => .error e
    | .ok (.plain, p') => scan c isIf fuel p' s
    | .ok (.start, p') =>
      scan c isIf fuel p' ⟨s.blockNestedDepth + 1, s.elseAddr,
        s.update s.blockNestedDepth fun b => { b with startAddr := c.addr p', elseAddr := 0 }⟩
    | .ok (.middle, p') =>
      scan c isIf fuel p' ⟨s.blockNestedDepth, if isIf ∧ s.blockNestedDepth = 1 then c.addr p else s.elseAddr,
        s.update (s.blockNestedDepth - 1) fun b => { b with elseAddr := c.addr p }⟩
    | .ok (.stop, p') =>
      if s.blockNestedDepth = 1 then
        .ok (⟨1, s.elseAddr, s.update 0 fun b => { b with endAddr := c.addr p }⟩, c.addr p)
      else
        scan c isIf fuel p' ⟨s.blockNestedDepth - 1, s.elseAddr,
          s.update (s.blockNestedDepth - 1) fun b => { b with endAddr := c.addr p }⟩

def Cache.insert (cache : Cache) (b : BlockAddr) : Cache :=
  let i := b.startAddr % blockAddrCacheSize
  let (first, second) := cache i
  Function.update cache i
    (if first.startAddr = 0 then (b, second)
    else if second.startAddr = 0 then (first, b)
    else (b, first))

/-- The blocks from entry `t` on, as far as there are any. -/
def Cache.insertFrom (blockStack : ℕ → BlockAddr) : ℕ → ℕ → Cache → Cache
  | 0, _, cache => cache
  | n+1, t, cache =>
    if (blockStack t).startAddr = 0 then cache else insertFrom blockStack n (t + 1) (cache.insert (blockStack t))

/-- What is written to `p_else_addr`, if anything is, and to `p_end_addr`. -/
structure Found where
  elseAddr : Option ℕ
  endAddr : ℕ
deriving DecidableEq

/-- With `(uint8 *)-1` for `code_end_addr`, as the interpreter passes it: the search has no end but that of
the bytes. -/
def findBlockAddr (c : Code) (cache : Cache) (startAddr : ℕ) (isIf : Bool) : Except Stop Found × Cache :=
  let (first, second) := cache (startAddr % blockAddrCacheSize)
  if first.startAddr = startAddr then (.ok ⟨some first.elseAddr, first.endAddr⟩, cache)
  else if second.startAddr = startAddr then (.ok ⟨some second.elseAddr, second.endAddr⟩, cache)
  else
    let p := c.bytesAt startAddr
    let blockStack := Function.update (fun _ => BlockAddr.null) 0 ⟨startAddr, 0, 0⟩
    match scan c isIf (p.length + 1) p ⟨1, 0, blockStack⟩ with
    | .error e => (.error e, cache)
    | .ok (s, endAddr) =>
      (.ok ⟨if isIf then some s.elseAddr else none, endAddr⟩, cache.insertFrom s.blockStack blockStackSize 0)

section Plain

variable {c : Code} {p q : List UInt8} {depth elseAddr : ℕ}

/-- The `else` and the `end` of the block that is `depth - 1` blocks further out than the bytes `p`. -/
def blockScan (c : Code) (p : List UInt8) (depth elseAddr : ℕ) : Except Stop (ℕ × ℕ) :=
  match _h : token p with
  | .error e => .error e
  | .ok (.plain, p') => blockScan c p' depth elseAddr
  | .ok (.start, p') => blockScan c p' (depth + 1) elseAddr
  | .ok (.middle, p') => blockScan c p' depth (if depth = 1 then c.addr p else elseAddr)
  | .ok (.stop, p') => if depth = 1 then .ok (elseAddr, c.addr p) else blockScan c p' (depth - 1) elseAddr
termination_by p.length
decreasing_by all_goals exact (token_shorter _h).2

/-- The search for the block that starts at an address, without cache and stack. -/
def blockAt (c : Code) (a : ℕ) : Except Stop (ℕ × ℕ) := blockScan c (c.bytesAt a) 1 0

theorem blockScan_error {e : Stop} (h : token p = .error e) : blockScan c p depth elseAddr = .error e := by
  rw [blockScan]
  split <;> simp_all

theorem blockScan_plain (h : token p = .ok (.plain, q)) :
    blockScan c p depth elseAddr = blockScan c q depth elseAddr := by
  rw [blockScan]
  split <;> simp_all

theorem blockScan_start (h : token p = .ok (.start, q)) :
    blockScan c p depth elseAddr = blockScan c q (depth + 1) elseAddr := by
  rw [blockScan]
  split <;> simp_all

theorem blockScan_middle (h : token p = .ok (.middle, q)) :
    blockScan c p depth elseAddr = blockScan c q depth (if depth = 1 then c.addr p else elseAddr) := by
  rw [blockScan]
  split <;> simp_all

theorem blockScan_stop (h : token p = .ok (.stop, q)) : blockScan c p depth elseAddr =
    if depth = 1 then .ok (elseAddr, c.addr p) else blockScan c q (depth - 1) elseAddr := by
  rw [blockScan]
  split <;> simp_all

end Plain

section Stack

variable {c : Code} {isIf : Bool} {p q : List UInt8} {s : Scan}

/-- An entry is empty or says where its block's `else` and `end` are. -/
def BlockAddr.Right (c : Code) (b : BlockAddr) : Prop :=
  b.startAddr ≠ 0 → blockAt c b.startAddr = .ok (b.elseAddr, b.endAddr)

/-- What the entries of `block_stack` say when the bytes `p` are left: those of the blocks that are
open lack what the bytes still show, the others are right. -/
structure Scan.Holds (c : Code) (isIf : Bool) (p : List UInt8) (s : Scan) : Prop where
  code : p <:+ c.bytes
  depth_pos : 0 < s.blockNestedDepth
  opened : ∀ t < blockStackSize, t < s.blockNestedDepth →
    blockAt c (s.blockStack t).startAddr = blockScan c p (s.blockNestedDepth - t) (s.blockStack t).elseAddr
  closed : ∀ t < blockStackSize, s.blockNestedDepth ≤ t → (s.blockStack t).Right c
  first : isIf → s.elseAddr = (s.blockStack 0).elseAddr

private theorem Scan.update_apply {t u : ℕ} (hu : u < blockStackSize) (f : BlockAddr → BlockAddr) :
    s.update t f u = if u = t then f (s.blockStack u) else s.blockStack u := by
  unfold Scan.update
  by_cases heq : u = t
  · rw [heq] at hu ⊢
    rw [if_pos hu,if_pos rfl,Function.update_self]
  · rw [if_neg heq]
    split
    next => rw [Function.update_of_ne heq]
    next => rfl

theorem Scan.Holds.plain (h : s.Holds c isIf p) (ht : token p = .ok (.plain, q)) : s.Holds c isIf q where
  code := (token_shorter ht).1.trans h.code
  depth_pos := h.depth_pos
  opened t hsize hopen := by rw [h.opened t hsize hopen,blockScan_plain ht]
  closed := h.closed
  first := h.first

/-- The new entry says nothing yet; whatever was there before is gone. -/
theorem Scan.Holds.start (h : s.Holds c isIf p) (ht : token p = .ok (.start, q)) :
    Scan.Holds c isIf q ⟨s.blockNestedDepth + 1, s.elseAddr,
      s.update s.blockNestedDepth fun b => { b with startAddr := c.addr q, elseAddr := 0 }⟩ where
  code := (token_shorter ht).1.trans h.code
  depth_pos := Nat.succ_pos _
  opened t hsize hopen := by
    have hcode := (token_shorter ht).1.trans h.code
    simp only at hopen ⊢
    rw [Scan.update_apply hsize]
    by_cases heq : t = s.blockNestedDepth
    · rw [if_pos heq]
      simp only
      rw [heq,Nat.add_sub_cancel_left,blockAt,c.bytesAt_addr hcode]
    · rw [if_neg heq,h.opened t hsize (by omega),blockScan_start ht]
      congr 1
      omega
  closed t hsize hclosed := by
    simp only at hclosed ⊢
    rw [Scan.update_apply hsize,if_neg (by omega)]
    exact h.closed t hsize (by omega)
  first hif := by
    have hpos := h.depth_pos
    simp only
    rw [Scan.update_apply (by decide),if_neg (by omega)]
    exact h.first hif

theorem Scan.Holds.middle (h : s.Holds c isIf p) (ht : token p = .ok (.middle, q)) :
    Scan.Holds c isIf q ⟨s.blockNestedDepth, if isIf ∧ s.blockNestedDepth = 1 then c.addr p else s.elseAddr,
      s.update (s.blockNestedDepth - 1) fun b => { b with elseAddr := c.addr p }⟩ where
  code := (token_shorter ht).1.trans h.code
  depth_pos := h.depth_pos
  opened t hsize hopen := by
    simp only at hopen ⊢
    rw [Scan.update_apply hsize]
    by_cases heq : t = s.blockNestedDepth - 1
    · rw [if_pos heq]
      simp only
      rw [h.opened t hsize hopen,blockScan_middle ht,if_pos (by omega)]
    · rw [if_neg heq,h.opened t hsize hopen,blockScan_middle ht,if_neg (by omega)]
  closed t hsize hclosed := by
    have hpos := h.depth_pos
    simp only at hclosed ⊢
    rw [Scan.update_apply hsize,if_neg (by omega)]
    exact h.closed t hsize hclosed
  first hif := by
    have hpos := h.depth_pos
    simp only
    rw [Scan.update_apply (by decide)]
    by_cases hone : s.blockNestedDepth = 1
    · rw [if_pos ⟨hif,hone⟩,if_pos (by omega)]
    · rw [if_neg (fun hboth => hone hboth.2),if_neg (by omega)]
      exact h.first hif

private theorem Scan.Holds.ended (h : s.Holds c isIf p) (ht : token p = .ok (.stop, q)) {t : ℕ}
    (hsize : t < blockStackSize)
    (hlast : s.blockNestedDepth - 1 ≤ t) :
    BlockAddr.Right c (s.update (s.blockNestedDepth - 1) (fun b => { b with endAddr := c.addr p }) t) := by
  have hpos := h.depth_pos
  rw [Scan.update_apply hsize]
  by_cases heq : t = s.blockNestedDepth - 1
  · rw [if_pos heq]
    intro _
    simp only
    rw [h.opened t hsize (by omega),blockScan_stop ht,if_pos (by omega)]
  · rw [if_neg heq]
    exact h.closed t hsize (by omega)

theorem Scan.Holds.stop (h : s.Holds c isIf p) (ht : token p = .ok (.stop, q)) (hmore : s.blockNestedDepth ≠ 1) :
    Scan.Holds c isIf q ⟨s.blockNestedDepth - 1, s.elseAddr,
      s.update (s.blockNestedDepth - 1) fun b => { b with endAddr := c.addr p }⟩ where
  code := (token_shorter ht).1.trans h.code
  depth_pos := by
    have hpos := h.depth_pos
    simp only
    omega
  opened t hsize hopen := by
    simp only at hopen ⊢
    rw [Scan.update_apply hsize,if_neg (by omega),h.opened t hsize (by omega),blockScan_stop ht,if_neg (by omega)]
    congr 1
    omega
  closed t hsize hclosed := h.ended ht hsize hclosed
  first hif := by
    have hpos := h.depth_pos
    simp only
    rw [Scan.update_apply (by decide),if_neg (by omega)]
    exact h.first hif

/-- What the loop should leave when the first entry starts at an address. -/
def Scan.Leaves (c : Code) (isIf : Bool) (a : ℕ) : Except Stop (Scan × ℕ) → Prop
  | .error e => blockAt c a = .error e
  | .ok (s, endAddr) => blockAt c a = .ok ((s.blockStack 0).elseAddr, endAddr) ∧
    (isIf → s.elseAddr = (s.blockStack 0).elseAddr) ∧ ∀ t < blockStackSize, (s.blockStack t).Right c

private theorem scan_spec {fuel : ℕ} (hfuel : p.length < fuel) (h : s.Holds c isIf p) :
    Scan.Leaves c isIf (s.blockStack 0).startAddr (scan c isIf fuel p s) := by
  induction fuel generalizing p s with
  | zero => exact absurd hfuel (Nat.not_lt_zero _)
  | succ fuel ih =>
    have hpos := h.depth_pos
    have hfirst := h.opened 0 (by decide) hpos
    have hfuel' : ∀ {t : Token} {q : List UInt8}, token p = .ok (t, q) → q.length < fuel := by
      intro t q ht
      have hshort := (token_shorter ht).2
      omega
    rw [scan]
    cases ht : token p with
    | error e =>
      apply hfirst.trans
      exact blockScan_error ht
    | ok r =>
      obtain ⟨t,q⟩ := r
      cases t with
      | plain => exact ih (hfuel' ht) (h.plain ht)
      | start =>
        have hnext := ih (hfuel' ht) (h.start ht)
        simp only [Scan.update_apply (by decide : 0 < blockStackSize),if_neg hpos.ne] at hnext
        exact hnext
      | middle =>
        have hnext := ih (hfuel' ht) (h.middle ht)
        simp only [Scan.update_apply (by decide : 0 < blockStackSize),apply_ite BlockAddr.startAddr,ite_self] at hnext
        exact hnext
      | stop =>
        simp only
        by_cases hone : s.blockNestedDepth = 1
        · have hzero : s.blockNestedDepth - 1 = 0 := by omega
          have hright := fun t hsize => h.ended ht (t := t) hsize (by omega)
          rw [hzero] at hright
          rw [if_pos hone]
          constructor
          · simp only
            rw [Scan.update_apply (by decide),if_pos rfl,hfirst,hone,Nat.sub_zero,blockScan_stop ht,if_pos rfl]
          · constructor
            · intro hif
              simp only
              rw [Scan.update_apply (by decide),if_pos rfl]
              exact h.first hif
            · exact hright
        · have hnext := ih (hfuel' ht) (h.stop ht hone)
          simp only [Scan.update_apply (by decide : 0 < blockStackSize),apply_ite BlockAddr.startAddr,ite_self] at hnext
          rw [if_neg hone]
          exact hnext

end Stack

section Cached

variable {c : Code} {cache : Cache} {a : ℕ} {isIf : Bool}

def Cache.Right (c : Code) (cache : Cache) : Prop := ∀ i, (cache i).1.Right c ∧ (cache i).2.Right c

private theorem Cache.empty_right (c : Code) : Cache.empty.Right c := by
  intro i
  constructor <;> exact fun h => absurd rfl h

theorem Cache.Right.insert (h : cache.Right c) {b : BlockAddr} (hb : b.Right c) : (cache.insert b).Right c := by
  have hthere := h (b.startAddr % blockAddrCacheSize)
  intro i
  unfold Cache.insert
  simp only
  by_cases heq : i = b.startAddr % blockAddrCacheSize
  · rw [heq,Function.update_self]
    split
    next => exact ⟨hb,hthere.2⟩
    next =>
      split
      next => exact ⟨hthere.1,hb⟩
      next => exact ⟨hb,hthere.1⟩
  · rw [Function.update_of_ne heq]
    exact h i

private theorem Cache.Right.insertFrom {blockStack : ℕ → BlockAddr} {n t : ℕ} (h : cache.Right c)
    (hstack : ∀ u < t + n, (blockStack u).Right c) : (cache.insertFrom blockStack n t).Right c := by
  induction n generalizing t cache with
  | zero => exact h
  | succ n ih =>
    rw [Cache.insertFrom]
    split
    next => exact h
    next => exact ih (h.insert (hstack t (by omega))) fun u hu => hstack u (by omega)

private theorem scan_first (c : Code) (isIf : Bool) (a : ℕ) :
    Scan.Holds c isIf (c.bytesAt a) ⟨1, 0, Function.update (fun _ => BlockAddr.null) 0 ⟨a, 0, 0⟩⟩ where
  code := List.drop_suffix _ _
  depth_pos := Nat.one_pos
  opened t hsize hopen := by
    obtain rfl := Nat.lt_one_iff.mp hopen
    rfl
  closed t hsize hclosed := by
    simp only at hclosed ⊢
    rw [Function.update_of_ne (by omega)]
    exact fun h => absurd rfl h
  first _ := rfl

/-- What a search should write. -/
def Found.IsOf (c : Code) (a : ℕ) (isIf : Bool) : Except Stop Found → Prop
  | .error e => blockAt c a = .error e
  | .ok f => ∃ elseAddr, blockAt c a = .ok (elseAddr, f.endAddr) ∧
    (f.elseAddr = some elseAddr ∨ f.elseAddr = none ∧ isIf = false)

theorem findBlockAddr_right (h : cache.Right c) (a : ℕ) (isIf : Bool) :
    (findBlockAddr c cache a isIf).2.Right c := by
  have hscan := scan_spec (Nat.lt_succ_self _) (scan_first c isIf a)
  unfold findBlockAddr
  simp only
  split
  next => exact h
  next =>
    split
    next => exact h
    next =>
      split
      next => exact h
      next heq =>
        rw [heq] at hscan
        exact h.insertFrom fun u hu => hscan.2.2 u (by omega)

theorem findBlockAddr_spec (h : cache.Right c) (ha : a ≠ 0) (isIf : Bool) :
    Found.IsOf c a isIf (findBlockAddr c cache a isIf).1 := by
  have hscan := scan_spec (Nat.lt_succ_self _) (scan_first c isIf a)
  have hthere := h (a % blockAddrCacheSize)
  unfold findBlockAddr
  simp only
  split
  next heq =>
    have hright := hthere.1 (by rw [heq]; exact ha)
    rw [heq] at hright
    exact ⟨_,hright,Or.inl rfl⟩
  next =>
    split
    next heq =>
      have hright := hthere.2 (by rw [heq]; exact ha)
      rw [heq] at hright
      exact ⟨_,hright,Or.inl rfl⟩
    next =>
      split
      next heq =>
        rw [heq] at hscan
        exact hscan
      next s endAddr heq =>
        rw [heq] at hscan
        refine ⟨_,hscan.1,?_⟩
        cases isIf with
        | false => exact Or.inr ⟨rfl,rfl⟩
        | true => exact Or.inl (congrArg some (hscan.2.1 rfl))

/-- What a caller looks at: the `else` is of use only to an `if`. -/
def Found.seen (isIf : Bool) (f : Found) : Option ℕ × ℕ := (if isIf then f.elseAddr else none, f.endAddr)

private theorem Found.IsOf.seen {r r' : Except Stop Found} (h : Found.IsOf c a isIf r) (h' : Found.IsOf c a isIf r') :
    r.map (Found.seen isIf) = r'.map (Found.seen isIf) := by
  cases r with
  | error e =>
    cases r' with
    | error e' => exact congrArg Except.error (Except.error.inj (h.symm.trans h'))
    | ok f' =>
      obtain ⟨elseAddr',hat',-⟩ := h'
      exact absurd (h.symm.trans hat') (by simp)
  | ok f =>
    obtain ⟨elseAddr,hat,helse⟩ := h
    cases r' with
    | error e' => exact absurd (hat.symm.trans h') (by simp)
    | ok f' =>
      obtain ⟨elseAddr',hat',helse'⟩ := h'
      obtain ⟨hsame,hend⟩ := Prod.mk.inj (Except.ok.inj (hat.symm.trans hat'))
      cases isIf with
      | false => simp [Except.map,Found.seen,hend]
      | true =>
        have hsome := helse.resolve_right (by simp)
        have hsome' := helse'.resolve_right (by simp)
        simp [Except.map,Found.seen,hend,hsome,hsome',hsame]

/-- What searches make of a cache, each from an address and for an `if` or not. -/
def Cache.search (c : Code) : Cache → List (ℕ × Bool) → Cache :=
  run fun cache search => (findBlockAddr c cache search.1 search.2).2

theorem Cache.Right.search (h : cache.Right c) (searches : List (ℕ × Bool)) : (cache.search c searches).Right c := by
  apply run_invariant
  · intro cache search hcache
    exact findBlockAddr_right hcache search.1 search.2
  · exact h

def cacheAfter (c : Code) : List (ℕ × Bool) → Cache := Cache.empty.search c

theorem cacheAfter_right (c : Code) (searches : List (ℕ × Bool)) : (cacheAfter c searches).Right c :=
  (Cache.empty_right c).search searches

/-- After any searches a search finds what it finds with an empty cache. -/
theorem findBlockAddr_cached (c : Code) (searches : List (ℕ × Bool)) (a : ℕ) (isIf : Bool) (ha : a ≠ 0) :
    (findBlockAddr c (cacheAfter c searches) a isIf).1.map (Found.seen isIf) =
      (findBlockAddr c Cache.empty a isIf).1.map (Found.seen isIf) := by
  have hcached := findBlockAddr_spec (cacheAfter_right c searches) ha isIf
  have hfresh := findBlockAddr_spec (Cache.empty_right c) ha isIf
  exact hcached.seen hfresh

/-- The inner block has been found by the search for the outer one. -/
theorem findBlockAddr_cached_inner :
    let c : Code := ⟨64, [opBlock, 0x40, opIf, 0x40, opElse, opEnd, opEnd, opEnd], by decide⟩
    (findBlockAddr c (cacheAfter c [(66, false)]) 68 true).1.map (Found.seen true) =
      (findBlockAddr c Cache.empty 68 true).1.map (Found.seen true) :=
  findBlockAddr_cached _ [(66, false)] 68 true (by decide)

end Cached

end WamrTest.Interp
