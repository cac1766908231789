import Mathlib.Algebra.BigOperators.Group.List.Basic
import WamrTest.Framework.Run
import WamrTest.Udf.Survive

/-!
# What earlier requests leave behind

The guest heap as a capacity from which every unpacked message takes its share. Only
`free_unpacked` gives a share back, and no entry point calls it: every accepted request stays
allocated, and later ones are answered as on a fresh instance only as long as they still fit.
-/

namespace WamrTest

open ByteMemory MachineInt Proto3 Transition

structure Heap where
  capacity : ℕ
  live : List ProtobufCMessage

section Shares

variable (cost : ProtobufCMessage → ℕ)

def Heap.used (h : Heap) : ℕ := (h.live.map cost).sum

/-- Unpack on the heap: a message that does not fit is answered with `NULL` as well, one that
does joins the live ones. -/
def heapFormat : Unpacker Heap where
  unpack d bytes h :=
    let answer := (unpack d bytes).filter fun m => h.used cost + cost ⟨d, m⟩ ≤ h.capacity
    (answer, { h with live := (answer.map (Sigma.mk d)).toList ++ h.live })

end Shares

section Runs

variable {cost : ProtobufCMessage → ℕ} [Add Double] [Sub Double] [Mul Double]

/-- The guest after a call, whether it returned or not. -/
def call (cost : ProtobufCMessage → ℕ) (g : Guest Heap) (r : Request) : Guest Heap :=
  (r.run (heapFormat cost) g).2

def unpacked (cost : ProtobufCMessage → ℕ) (g : Guest Heap) (r : Request) : Option ProtobufCMessage :=
  ((heapFormat cost).unpack r.descriptor r.bytes g.heap).1.map (Sigma.mk r.descriptor)

private theorem call_heap (g : Guest Heap) (r : Request) :
    (call cost g r).heap = { g.heap with live := (unpacked cost g r).toList ++ g.heap.live } := by
  rw [call,r.run_eq_serve,serve_heap]
  rfl

omit [Add Double] [Sub Double] [Mul Double] in
private theorem unpacked_fits {g : Guest Heap} {r : Request} {m : ProtobufCMessage}
    (h : unpacked cost g r = some m) : g.heap.used cost + cost m ≤ g.heap.capacity := by
  obtain ⟨m,hm,rfl⟩ := Option.map_eq_some_iff.mp h
  exact of_decide_eq_true (Option.filter_eq_some_iff.mp hm).2

structure Heap.Fits (cost : ProtobufCMessage → ℕ) (capacity : ℕ) (h : Heap) : Prop where
  capacity_eq : h.capacity = capacity
  used_le : h.used cost ≤ capacity

theorem Heap.Fits.call {capacity : ℕ} {g : Guest Heap} (h : g.heap.Fits cost capacity)
    (r : Request) : (call cost g r).heap.Fits cost capacity := by
  obtain ⟨hcap,hused⟩ := h
  rw [call_heap]
  cases hm : unpacked cost g r with
  | none => exact ⟨hcap,hused⟩
  | some m =>
    have hfit := unpacked_fits hm
    refine ⟨hcap,?_⟩
    simp only [Heap.used,Option.toList_some,List.cons_append,List.nil_append,
      List.map_cons,List.sum_cons] at hfit ⊢
    omega

omit [Add Double] [Sub Double] [Mul Double] in
theorem Heap.Fits.length_le {capacity : ℕ} {h : Heap} (hfits : h.Fits cost capacity)
    (hcost : ∀ m, 0 < cost m) : h.live.length ≤ capacity := by
  have hsum : (h.live.map cost).length ≤ (h.live.map cost).sum := by
    apply List.length_le_sum_of_one_le
    rw [List.forall_mem_map]
    exact fun m _ => hcost m
  rw [List.length_map] at hsum
  exact hsum.trans hfits.used_le

private theorem response_ne_null {g : Guest Heap} {r : Request} {m : Message r.descriptor}
    (h : ((heapFormat cost).unpack r.descriptor r.bytes g.heap).1 = some m) :
    r.response (heapFormat cost) g ≠ .error .nullMessage := by
  rw [r.response_eq,h]
  simp only
  cases hb : r.body m with
  | ok response => simp [Except.map]
  | error fault =>
    intro he
    have hfault : fault = .nullMessage := Except.error.inj he
    by_cases hempty : r.Empty m
    · rw [r.body_empty hempty] at hb
      rw [← Except.error.inj hb] at hfault
      exact absurd hfault (by decide)
    · exact (r.body_late hempty hb).1 hfault

private theorem response_null {g : Guest Heap} {r : Request}
    (h : ((heapFormat cost).unpack r.descriptor r.bytes g.heap).1 = none) :
    r.response (heapFormat cost) g = .error .nullMessage := by
  rw [r.response_eq,h]

private theorem response_eq_iff (g g' : Guest Heap) (r : Request) :
    r.response (heapFormat cost) g = r.response (heapFormat cost) g' ↔
      ∀ m, unpack r.descriptor r.bytes = some m →
        (g.heap.used cost + cost ⟨_, m⟩ ≤ g.heap.capacity ↔
          g'.heap.used cost + cost ⟨_, m⟩ ≤ g'.heap.capacity) := by
  have answer (g : Guest Heap) : ((heapFormat cost).unpack r.descriptor r.bytes g.heap).1 =
      (unpack r.descriptor r.bytes).filter
        fun m => g.heap.used cost + cost ⟨_, m⟩ ≤ g.heap.capacity := rfl
  cases hu : unpack r.descriptor r.bytes with
  | none =>
    rw [response_null (by rw [answer,hu]; rfl),response_null (by rw [answer,hu]; rfl)]
    simp
  | some m =>
    have accepted (g : Guest Heap) (h : g.heap.used cost + cost ⟨_, m⟩ ≤ g.heap.capacity) :
        ((heapFormat cost).unpack r.descriptor r.bytes g.heap).1 = some m := by
      simp [answer,hu,h]
    have rejected (g : Guest Heap) (h : ¬ g.heap.used cost + cost ⟨_, m⟩ ≤ g.heap.capacity) :
        ((heapFormat cost).unpack r.descriptor r.bytes g.heap).1 = none := by
      simp [answer,hu,not_le.mp h]
    simp only [Option.some.injEq,forall_eq']
    by_cases h : g.heap.used cost + cost ⟨_, m⟩ ≤ g.heap.capacity
    · by_cases h' : g'.heap.used cost + cost ⟨_, m⟩ ≤ g'.heap.capacity
      · rw [r.response_eq,r.response_eq,accepted g h,accepted g' h']
        simp [h,h']
      · rw [response_null (rejected g' h')]
        simp [response_ne_null (accepted g h),h,h']
    · rw [response_null (rejected g h)]
      by_cases h' : g'.heap.used cost + cost ⟨_, m⟩ ≤ g'.heap.capacity
      · simp [(response_ne_null (accepted g' h')).symm,h,h']
      · simp [response_null (rejected g' h'),h,h']

/-- Over every run of calls on a fresh instance: a call adds the message it unpacks to the live
ones and takes none away, so that no more than `capacity` requests are ever accepted, and a request
is answered as on the fresh instance exactly if its message, should it fit there, still fits. -/
theorem leak_over_runs (hcost : ∀ m, 0 < cost m) (capacity : ℕ) (out : Mem UInt8)
    (requests : List Request) (r : Request) :
    let fresh : Guest Heap := ⟨out, capacity, []⟩
    let g := run (call cost) fresh requests
    (call cost g r).heap.live = (unpacked cost g r).toList ++ g.heap.live ∧
      (call cost g r).heap.live.length ≤ capacity ∧
      (r.response (heapFormat cost) g = r.response (heapFormat cost) fresh ↔
        ∀ m, unpack r.descriptor r.bytes = some m → cost ⟨_, m⟩ ≤ capacity →
          g.heap.used cost + cost ⟨_, m⟩ ≤ capacity) := by
  intro fresh g
  have hfresh : fresh.heap.Fits cost capacity := ⟨rfl,Nat.zero_le capacity⟩
  have hstep (g : Guest Heap) (r : Request) (h : g.heap.Fits cost capacity) :
      (call cost g r).heap.Fits cost capacity := h.call r
  have hg : g.heap.Fits cost capacity :=
    run_invariant (P := fun g : Guest Heap => g.heap.Fits cost capacity) hstep hfresh requests
  refine ⟨by rw [call_heap],(hg.call r).length_le hcost,?_⟩
  rw [response_eq_iff,hg.capacity_eq]
  have hempty : fresh.heap.used cost = 0 := rfl
  have hcap : fresh.heap.capacity = capacity := rfl
  rw [hempty,hcap]
  refine forall₂_congr fun m _ => ?_
  have hmono : g.heap.used cost + cost ⟨_, m⟩ ≤ capacity → cost ⟨_, m⟩ ≤ capacity := by omega
  rw [Nat.zero_add]
  exact ⟨fun h => h.mpr,fun h => ⟨hmono,h⟩⟩

end Runs

/-- On a heap with room for one message the second of two equal requests meets `NULL`. -/
theorem leak_exhausts :
    let lib := heapFormat fun _ => 1
    let fresh : Guest Heap := ⟨fun _ => 0, 1, []⟩
    let first := strReverse lib fresh (fun _ => 0) 0
    first.1 = .ok 0 ∧ first.2.heap.live.length = 1 ∧
      (strReverse lib first.2 (fun _ => 0) 0).1 = .error .nullMessage := by
  refine ⟨rfl,rfl,rfl⟩

theorem leak_over_runs_sample :
    let call := @call ⟨Double.ieee (· + ·)⟩ ⟨Double.ieee (· - ·)⟩ ⟨Double.ieee (· * ·)⟩ fun _ => 1
    (call (run call ⟨fun _ => 0, 1, []⟩ [.fib (fun _ => 0) 0]) (.fib (fun _ => 0) 0)).heap.live.length
      ≤ 1 :=
  (@leak_over_runs (fun _ => 1) ⟨Double.ieee (· + ·)⟩ ⟨Double.ieee (· - ·)⟩ ⟨Double.ieee (· * ·)⟩
    (fun _ => Nat.one_pos) 1 (fun _ => 0) [.fib (fun _ => 0) 0] (.fib (fun _ => 0) 0)).2.1

end WamrTest
