import WamrTest.Ems.Alloc
import WamrTest.Ems.Free
import WamrTest.Framework.Run

/-!
# The heap and its client

A client allocates objects, writes into them and gives them back. As long as it writes only into
objects it holds and gives back only these, the heap stays consistent and every object keeps what
was last written into it.
-/

namespace WamrTest.Ems

open Arena ByteMemory Transition

inductive Call
  | malloc (size : UInt32)
  | free (obj : ℤ)
  | store (obj : ℤ) (i : ℕ) (value : UInt8)

/-- The heap, the sizes that were asked for of the objects that are held, and what was last written
at an address. -/
structure Client where
  heap : Heap
  live : ℤ → Option UInt32
  written : ℤ → Option UInt8

namespace Client

def start (heap : Heap) : Client := ⟨heap, fun _ => none, fun _ => none⟩

def step (c : Client) : Call → Client
  | .malloc size =>
    match gcAllocVo c.heap size with
    | (heap, none) => { c with heap }
    | (heap, some obj) => { c with heap, live := Function.update c.live obj (some size) }
  | .free obj =>
    let size := ((c.live obj).getD 0).toNat
    { heap := (gcFreeVo c.heap obj).1
      live := Function.update c.live obj none
      written := fun z => if obj ≤ z ∧ z < obj + size then none else c.written z }
  | .store obj i value =>
    { c with
      heap := { c.heap with mem := Function.update c.heap.mem (obj + i) value }
      written := Function.update c.written (obj + i) (some value) }

/-- `free` may also be called with a null pointer or one outside the heap. -/
def Allows (c : Client) : Call → Prop
  | .malloc _ => True
  | .free obj => obj = 0 ∨ ¬ c.heap.HmuIsInHeap (obj - hmuSize) ∨ (c.live obj).isSome
  | .store obj i _ => i < ((c.live obj).getD 0).toNat

instance (c : Client) (call : Call) : Decidable (c.Allows call) := by
  cases call <;> unfold Allows <;> infer_instance

end Client

/-- The objects that are held are the chunks in use. -/
structure Served (c : Client) (bs : List Block) : Prop where
  heap : Consistent c.heap bs
  used : ∀ x s, UsedAt c.heap.baseAddr bs x s → ∃ n, c.live (x + hmuSize) = some n
  live : ∀ o n, c.live o = some n → ∃ s, UsedAt c.heap.baseAddr bs (o - hmuSize) s ∧ hmuSize + n.toNat ≤ s
  written : ∀ z v, c.written z = some v → c.heap.mem z = v ∧ ∃ o n, c.live o = some n ∧ o ≤ z ∧ z < o + n.toNat

section Step

variable {c : Client} {bs p q : List Block} {obj : ℤ}

theorem Served.start {h : Heap} {s : ℤ} (hc : Consistent h [⟨s, true⟩]) : Served (.start h) [⟨s, true⟩] := by
  refine ⟨hc,?_,nofun,nofun⟩
  intro x t hx
  exact absurd hx (not_usedAt_of_free (by simp))

theorem Served.bounds (hs : Served c bs) {n : UInt32} (ho : c.live obj = some n) :
    c.heap.baseAddr + hmuSize ≤ obj ∧ obj + n.toNat ≤ c.heap.endAddr := by
  obtain ⟨s,hused,hn⟩ := hs.live obj n ho
  have hbounds := place_bounds hs.heap.layout.pos hused
  rw [hs.heap.total,← Heap.endAddr] at hbounds
  simp only at hbounds
  omega

theorem Served.malloc (hs : Served c bs) (size : UInt32) : ∃ bs', Served (c.step (.malloc size)) bs' := by
  rcases gcAllocVo_spec hs.heap size with ⟨-,hnone⟩ | ⟨h',p,s,t,rest,q,ha⟩
  · refine ⟨bs,?_⟩
    simp only [Client.step,hnone]
    exact hs
  · have hsplit := ha.split
    subst hsplit
    have hplace := mem_place_middle c.heap.baseAddr p ⟨s, true⟩ q
    have hsum : t + total rest = s := by
      have htotal := total_carve gcSmallestSize (totSize size) s
      rw [ha.carve,total_cons] at htotal
      exact htotal
    have hrest := carve_rest ha.carve
    have hcut {y u : ℤ} := usedAt_cut (a := c.heap.baseAddr) (x := y) (p := p) (q := q) hrest hsum (u := u)
    refine ⟨p ++ ⟨t, false⟩::(rest ++ q),?_⟩
    simp only [Client.step,ha.result]
    generalize hobj : c.heap.baseAddr + total p + hmuSize = obj at *
    have hself : Function.update c.live obj (some size) obj = some size := Function.update_self _ _ _
    have hother (o : ℤ) (hne : o ≠ obj) : Function.update c.live obj (some size) o = c.live o :=
      Function.update_of_ne hne _ _
    generalize Function.update c.live obj (some size) = live at *
    refine ⟨ha.consistent,?_,?_,?_⟩
    · intro x u hx
      simp only [ha.baseAddr] at hx ⊢
      rcases hcut.mp hx with hx | ⟨rfl,-⟩
      · by_cases heq : x + hmuSize = obj
        · exact ⟨size,by rw [heq]; exact hself⟩
        · rw [hother _ heq]
          exact hs.used x u hx
      · exact ⟨size,by rw [hobj]; exact hself⟩
    · intro o n ho
      simp only [ha.baseAddr] at ho ⊢
      by_cases heq : o = obj
      · rw [heq,hself] at ho
        have hn := Option.some.inj ho
        subst hn
        refine ⟨t,hcut.mpr (.inr ⟨by omega,rfl⟩),?_⟩
        have hneed := (totSize_bounds size).2.2
        have hle := le_of_carve ha.carve ha.fits
        rw [hmuSize]
        omega
      · rw [hother _ heq] at ho
        obtain ⟨u,hused,hn⟩ := hs.live o n ho
        exact ⟨u,hcut.mpr (.inl hused),hn⟩
    · intro z v hz
      obtain ⟨hmem,o,n,ho,hoz,hzo⟩ := hs.written z v hz
      obtain ⟨u,hused,hn⟩ := hs.live o n ho
      have hne : o ≠ obj := by
        intro heq
        have haddr : o - hmuSize = c.heap.baseAddr + total p := by omega
        rw [haddr] at hused
        have hblock := place_inj hs.heap.layout.pos hused hplace
        exact absurd (congrArg Block.free hblock) (by simp)
      have hkeep := ha.keeps (o - hmuSize) ⟨u, false⟩ hused rfl (by simp)
      rw [hmuSize] at hkeep hn
      simp only [sub_add_cancel] at hkeep ⊢
      refine ⟨?_,o,n,(hother o hne).trans ho,hoz,hzo⟩
      rw [hkeep z hoz (by omega)]
      exact hmem

/-- A pointer that is no object's, null or outside the heap, is left alone. -/
theorem Served.free_other (hs : Served c bs) (hok : c.Allows (.free obj)) (hobj : c.live obj = none) :
    c.step (.free obj) = c := by
  have hsame : (gcFreeVo c.heap obj).1 = c.heap := by
    rcases hok with hnull | hout | hlive
    · simp [gcFreeVo,hnull]
    · have hintact := hs.heap.intact
      simp only [gcFreeVo,hintact,hout]
      simp
    · rw [hobj] at hlive
      exact absurd hlive (by simp)
  have hwritten : (fun z => if obj ≤ z ∧ z < obj + (((0 : UInt32).toNat : ℕ) : ℤ) then none else c.written z) =
      c.written := by
    funext z
    exact if_neg (by simp)
  have hlive : Function.update c.live obj none = c.live := by
    rw [← hobj]
    exact Function.update_eq_self obj c.live
  simp only [Client.step,hsame,hobj,Option.getD_none,hlive,hwritten]

theorem Served.free_live (hs : Served c bs) {n : UInt32} (hobj : c.live obj = some n) :
    ∃ bs', Served (c.step (.free obj)) bs' := by
  obtain ⟨s,hused,hn⟩ := hs.live obj n hobj
  obtain ⟨p,q,rfl,hx⟩ := exists_split hused
  obtain ⟨h',hf⟩ := gcFreeVo_spec hs.heap
  have haddr : c.heap.baseAddr + total p + hmuSize = obj := by omega
  have hresult := hf.result
  have hkeeps := hf.keeps
  rw [haddr] at hresult
  rw [← hx] at hkeeps
  have hrelease {y u : ℤ} :=
    usedAt_release (a := c.heap.baseAddr) (x := y) hs.heap.layout.pos (u := u)
  refine ⟨release p s q,?_⟩
  simp only [Client.step,hresult,hobj,Option.getD_some]
  have hself : Function.update c.live obj none obj = none := Function.update_self _ _ _
  have hother (o : ℤ) (hne : o ≠ obj) : Function.update c.live obj none o = c.live o :=
    Function.update_of_ne hne _ _
  generalize Function.update c.live obj none = live at *
  refine ⟨hf.consistent,?_,?_,?_⟩
  · intro x u hxu
    simp only [hf.baseAddr] at hxu ⊢
    obtain ⟨hold,hne⟩ := hrelease.mp hxu
    rw [hother _ (by omega)]
    exact hs.used x u hold
  · intro o m ho
    simp only [hf.baseAddr] at ho ⊢
    have hne : o ≠ obj := by
      intro heq
      rw [heq,hself] at ho
      exact absurd ho (by simp)
    rw [hother o hne] at ho
    obtain ⟨u,hu,hm⟩ := hs.live o m ho
    exact ⟨u,hrelease.mpr ⟨hu,by omega⟩,hm⟩
  · intro z v hz
    simp only at hz ⊢
    split at hz
    next => exact absurd hz (by simp)
    next hout =>
      obtain ⟨hmem,o,m,ho,hoz,hzo⟩ := hs.written z v hz
      have hne : o ≠ obj := by
        rintro rfl
        have hnm := Option.some.inj (ho.symm.trans hobj)
        subst hnm
        exact hout ⟨hoz,hzo⟩
      obtain ⟨u,hu,hm⟩ := hs.live o m ho
      have hapart : some (obj - hmuSize) ≠ some (o - hmuSize) := by
        intro heq
        have hsub := Option.some.inj heq
        omega
      have hkeep := hkeeps (o - hmuSize) ⟨u, false⟩ hu rfl hapart
      rw [hmuSize] at hkeep hm
      simp only [sub_add_cancel] at hkeep
      refine ⟨?_,o,m,(hother o hne).trans ho,hoz,hzo⟩
      rw [hkeep z hoz (by omega)]
      exact hmem

theorem Served.free (hs : Served c bs) (hok : c.Allows (.free obj)) : ∃ bs', Served (c.step (.free obj)) bs' := by
  cases hobj : c.live obj with
  | none => exact ⟨bs,by rw [hs.free_other hok hobj]; exact hs⟩
  | some n => exact hs.free_live hobj

theorem Served.store (hs : Served c bs) {i : ℕ} {value : UInt8} (hok : c.Allows (.store obj i value)) :
    Served (c.step (.store obj i value)) bs := by
  cases hobj : c.live obj with
  | none =>
    rw [Client.Allows,hobj] at hok
    exact absurd hok (Nat.not_lt_zero i)
  | some n =>
    rw [Client.Allows,hobj] at hok
    change i < n.toNat at hok
    obtain ⟨s,hused,hn⟩ := hs.live obj n hobj
    rw [hmuSize] at hused hn
    have hsame (z : ℤ) (hz : z < obj + i ∨ obj + i + 1 ≤ z) :
        Function.update c.heap.mem (obj + i) value z = c.heap.mem z := Function.update_of_ne (by omega) _ _
    have hheap := hs.heap.write hused (u := obj + i) (v := obj + i + 1) (by rw [hmuSize]; omega) (by omega) hsame
    refine ⟨hheap,hs.used,hs.live,?_⟩
    intro z v hz
    simp only [Client.step] at hz ⊢
    by_cases heq : z = obj + i
    · subst heq
      rw [Function.update_self] at hz ⊢
      exact ⟨Option.some.inj hz,obj,n,hobj,by omega,by omega⟩
    · rw [Function.update_of_ne heq] at hz ⊢
      exact hs.written z v hz

theorem Served.step (hs : Served c bs) (call : Call) (hok : c.Allows call) : ∃ bs', Served (c.step call) bs' := by
  cases call with
  | malloc size => exact hs.malloc size
  | free obj => exact hs.free hok
  | store obj i value => exact ⟨bs,hs.store hok⟩

end Step

end WamrTest.Ems
