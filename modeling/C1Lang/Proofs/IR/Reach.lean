import C1Lang.IR.Verify
import Mathlib.Logic.Relation

/-!
# Reachable blocks

The search of the verifier finds exactly the blocks on a path from the one in which the function
starts (`mem_reached_iff`), so a function all of whose blocks are linked to that one has no
unreachable blocks.
-/

namespace C1Lang.IR

def Edge (blocks : Array Block) (i j : Nat) : Prop :=
  ∃ b, blocks[i]? = some b ∧ j ∈ b.terminator.successors

abbrev Linked (blocks : Array Block) : Nat → Nat → Prop := Relation.ReflTransGen (Edge blocks)

theorem Terminator.successors_length_le (t : Terminator) : t.successors.length ≤ 2 := by
  cases t <;> simp [successors]

namespace Module

def unseen (blocks : Array Block) (seen : List Nat) : Nat :=
  ((List.range blocks.size).filter (!seen.contains ·)).length

theorem unseen_cons_lt {blocks : Array Block} {seen : List Nat} {id : Nat}
    (hid : id < blocks.size) (hs : id ∉ seen) :
    unseen blocks (id :: seen) < unseen blocks seen := by
  have hsplit : (List.range blocks.size).filter (!(id :: seen).contains ·) =
      ((List.range blocks.size).filter (!seen.contains ·)).filter (· != id) := by
    rw [List.filter_filter]
    apply List.filter_congr
    intro x _
    grind
  unfold unseen
  rw [hsplit, List.length_filter_lt_length_iff_exists]
  refine ⟨id, ?_, by simp⟩
  simp [hid, hs]

/-- What the search has seen, and what it leads to, is seen or waits in the queue. -/
def Covered (blocks : Array Block) (queue seen : List Nat) : Prop :=
  ∀ i ∈ seen, ∀ j, Edge blocks i j → j < blocks.size → j ∈ seen ∨ j ∈ queue

/-- The search ends with a set that no edge leaves, around what it was started with. The fuel
covers the queue and two edges for each block that is not seen yet. -/
theorem explore_closed {blocks : Array Block} {fuel : Nat} {queue seen : List Nat}
    (hfuel : queue.length + 2 * unseen blocks seen ≤ fuel) (hc : Covered blocks queue seen) :
    (∀ i, i ∈ seen ∨ i ∈ queue ∧ i < blocks.size → i ∈ explore blocks fuel queue seen) ∧
      Covered blocks [] (explore blocks fuel queue seen) := by
  fun_induction explore blocks fuel queue seen with
  | case1 queue seen =>
    obtain rfl : queue = [] := List.length_eq_zero_iff.mp (by omega)
    exact ⟨fun i hi => by simpa using hi, hc⟩
  | case2 fuel seen => exact ⟨fun i hi => by simpa using hi, hc⟩
  | case3 fuel id queue seen hb ih =>
    have hid : ¬ id < blocks.size := by
      intro h
      simp [Array.getElem?_eq_getElem h] at hb
    obtain ⟨hall, hcl⟩ := ih (by simp only [List.length_cons] at hfuel; omega) (by
      intro i hi j hij hj
      have := hc i hi j hij hj
      grind)
    refine ⟨fun i hi => hall i ?_, hcl⟩
    grind
  | case4 fuel id queue seen b hb hs ih =>
    have hmem : id ∈ seen := by simpa using hs
    obtain ⟨hall, hcl⟩ := ih (by simp only [List.length_cons] at hfuel; omega) (by
      intro i hi j hij hj
      have := hc i hi j hij hj
      grind)
    refine ⟨fun i hi => hall i ?_, hcl⟩
    grind
  | case5 fuel id queue seen b hb hs ih =>
    have hnot : id ∉ seen := by simpa using hs
    have hid : id < blocks.size := (Array.getElem?_eq_some_iff.mp hb).1
    have hlt := unseen_cons_lt hid hnot
    have hsucc := b.terminator.successors_length_le
    obtain ⟨hall, hcl⟩ := ih
      (by simp only [List.length_cons, List.length_append] at hfuel ⊢; omega) (by
        intro i hi j hij hj
        rcases List.mem_cons.mp hi with rfl | hi
        · obtain ⟨c, hbc, hjc⟩ := hij
          rw [hb] at hbc
          cases hbc
          exact .inr (List.mem_append_right _ hjc)
        · have := hc i hi j hij hj
          grind)
    refine ⟨fun i hi => hall i ?_, hcl⟩
    grind

theorem mem_reached_of_linked {f : Function} {id : Nat} (h : Linked f.blocks f.entry id)
    (hid : id < f.blocks.size) : id ∈ reached f := by
  have hfuel : [f.entry].length + 2 * unseen f.blocks [] ≤ 2 * f.blocks.size + 1 := by
    have := List.length_filter_le (fun i => !([] : List Nat).contains i)
      (List.range f.blocks.size)
    simp only [unseen, List.length_singleton, List.length_range] at this ⊢
    omega
  obtain ⟨hall, hclosed⟩ := explore_closed hfuel (by intro i hi; cases hi)
  induction h with
  | refl => exact hall _ (.inr ⟨by simp, hid⟩)
  | tail hp he ih =>
    have hi := ih (Array.getElem?_eq_some_iff.mp he.choose_spec.1).1
    exact (hclosed _ hi _ he hid).resolve_right (by simp)

theorem linked_of_mem_explore {blocks : Array Block} {fuel : Nat} {queue seen : List Nat} {i : Nat}
    (h : i ∈ explore blocks fuel queue seen) :
    i ∈ seen ∨ i < blocks.size ∧ ∃ q ∈ queue, Linked blocks q i := by
  fun_induction explore blocks fuel queue seen with
  | case1 => exact .inl h
  | case2 => exact .inl h
  | case3 fuel id queue seen hb ih =>
    rcases ih h with hs | ⟨hi, q, hq, hl⟩
    · exact .inl hs
    · exact .inr ⟨hi, q, List.mem_cons_of_mem _ hq, hl⟩
  | case4 fuel id queue seen b hb hs ih =>
    rcases ih h with hs | ⟨hi, q, hq, hl⟩
    · exact .inl hs
    · exact .inr ⟨hi, q, List.mem_cons_of_mem _ hq, hl⟩
  | case5 fuel id queue seen b hb hs ih =>
    rcases ih h with hmem | ⟨hi, q, hq, hl⟩
    · rcases List.mem_cons.mp hmem with rfl | hmem
      · exact .inr ⟨(Array.getElem?_eq_some_iff.mp hb).1, _, List.mem_cons_self, .refl⟩
      · exact .inl hmem
    · rcases List.mem_append.mp hq with hq | hq
      · exact .inr ⟨hi, q, List.mem_cons_of_mem _ hq, hl⟩
      · exact .inr ⟨hi, id, List.mem_cons_self, .head ⟨b, hb, hq⟩ hl⟩

theorem mem_reached_iff {f : Function} {id : Nat} :
    id ∈ reached f ↔ id < f.blocks.size ∧ Linked f.blocks f.entry id := by
  constructor
  · intro h
    rcases linked_of_mem_explore h with hs | ⟨hid, q, hq, hl⟩
    · cases hs
    · obtain rfl := List.mem_singleton.mp hq
      exact ⟨hid, hl⟩
  · intro h
    exact mem_reached_of_linked h.2 h.1

theorem reachDefects_eq_nil {f : Function}
    (h : ∀ id < f.blocks.size, Linked f.blocks f.entry id) : reachDefects f = [] := by
  unfold reachDefects
  rw [List.filterMap_eq_nil_iff]
  intro x hx
  have hid : x.2 < f.blocks.size := by
    have := List.snd_lt_of_mem_zipIdx hx
    simpa using this
  have hmem := mem_reached_of_linked (h x.2 hid) hid
  simp [hmem]

end Module

end C1Lang.IR
