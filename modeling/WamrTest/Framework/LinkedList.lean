import Mathlib.Data.List.Basic
import Mathlib.Data.List.Nodup

/-!
# Singly linked lists

A list of nodes reached from a head by a `next` function, and what insertion at the head and
removal of a node make of it.
-/

namespace LinkedList

variable {α : Type} {next next' : α → Option α} {head : Option α} {l p q : List α} {a : α}

def Chain (next : α → Option α) : Option α → List α → Prop
  | head, [] => head = none
  | head, a::l => head = some a ∧ Chain next (next a) l

theorem Chain.congr (h : Chain next head l) (hsame : ∀ a ∈ l, next' a = next a) :
    Chain next' head l := by
  induction l generalizing head with
  | nil => exact h
  | cons a l ih =>
    refine ⟨h.1,?_⟩
    rw [hsame a List.mem_cons_self]
    exact ih h.2 fun b hb => hsame b (List.mem_cons_of_mem a hb)

theorem Chain.cons (h : Chain next head l) (hnext : next' a = head) (hsame : ∀ b ∈ l, next' b = next b) :
    Chain next' (some a) (a::l) := by
  refine ⟨rfl,?_⟩
  rw [hnext]
  exact h.congr hsame

theorem Chain.mem_of_head {b : α} (h : Chain next head l) (hhead : head = some b) : b ∈ l := by
  cases l with
  | nil => exact absurd (hhead.symm.trans h) (by simp)
  | cons a l =>
    rw [Option.some.inj (hhead.symm.trans h.1)]
    exact List.mem_cons_self

theorem Chain.append (h : Chain next head (p ++ q)) : ∃ mid, Chain next mid q ∧ (p = [] → mid = head) := by
  induction p generalizing head with
  | nil => exact ⟨head,h,fun _ => rfl⟩
  | cons b p ih =>
    obtain ⟨mid,hmid,-⟩ := ih h.2
    exact ⟨mid,hmid,nofun⟩

/-- The node before the removed one, if there is one, takes over its successor. -/
theorem Chain.remove (h : Chain next head (p ++ a::q)) (hnodup : (p ++ a::q).Nodup)
    (hlast : ∀ b, p.getLast? = some b → next' b = next a)
    (hsame : ∀ b ∈ p ++ a::q, p.getLast? ≠ some b → next' b = next b) :
    Chain next' (if p = [] then next a else head) (p ++ q) := by
  induction p generalizing head with
  | nil =>
    refine Chain.congr h.2 ?_
    intro b hb
    exact hsame b (List.mem_cons_of_mem a hb) (by simp)
  | cons b p ih =>
    rw [if_neg (by simp)]
    refine ⟨h.1,?_⟩
    rw [List.cons_append,List.nodup_cons] at hnodup
    have hih := ih h.2 hnodup.2 (fun c hc => hlast c (by simp [List.getLast?_cons,hc]))
    cases p with
    | nil =>
      rw [hlast b rfl]
      refine Chain.congr h.2.2 ?_
      intro c hc
      apply hsame c (List.mem_cons_of_mem b (List.mem_cons_of_mem a hc))
      intro hbc
      have heq : b = c := Option.some.inj hbc
      exact hnodup.1 (heq ▸ List.mem_cons_of_mem a hc)
    | cons c p =>
      have hne : (b::c::p).getLast? ≠ some b := by
        intro hb
        have hmem : b ∈ c::p := List.mem_of_getLast? (by simpa [List.getLast?_cons] using hb)
        exact hnodup.1 (List.mem_append_left _ hmem)
      rw [hsame b List.mem_cons_self hne]
      refine hih ?_
      intro d hd hlastd
      apply hsame d (List.mem_cons_of_mem b hd)
      simpa [List.getLast?_cons] using hlastd

end LinkedList
