import C1Lang.Proofs.IR.Construction

/-!
# Where control goes

While a function is built, every block leads to the current one or to one that waits, and none
returns (`Flow`). When nothing waits any more and the last block returns, it is the only one that
does, and every block leads to it (`Built.structured`). No block is written to after it was ended
(`Built.rewrites`).
-/

namespace C1Lang.IR

namespace Builder

variable {b b' : Builder}

theorem Open.ended (hb : b.Open) : b.ended = false := by
  obtain ⟨c, hc, ht⟩ := hb
  simp [Builder.ended, terminated?, hc, ht]

theorem push_rewrites (hb : b.Open) (i : Instr) : (b.push i).rewrites = b.rewrites := by
  simp [push, hb.ended]

theorem leave_rewrites (hb : b.Open) (t : Terminator) (next : Nat) :
    (b.leave t next).rewrites = b.rewrites := by
  simp [leave, hb.ended]

end Builder

open Builder

theorem Built.rewrites {m : Module} {b b' : Builder} {waiting : List Nat} (hb : b.Open)
    (h : Built m b waiting b') : b'.rewrites = b.rewrites := by
  induction h with
  | start => rfl
  | slot _ _ _ ih => exact ih
  | @compute _ b₁ ty i h _ _ _ ih =>
    have hopen : (b₁.addTemp ty).2.Open := (h.frame hb).opened
    exact (push_rewrites hopen i).trans ih
  | perform h _ _ _ ih => exact (push_rewrites (h.frame hb).opened _).trans ih
  | create _ ih => exact ih
  | leave h _ _ _ _ ih => exact (leave_rewrites (h.frame hb).opened _ _).trans ih

structure Flow (waiting : List Nat) (b : Builder) : Prop where
  drains : ∀ id < b.blocks.size, ∃ target ∈ b.current :: waiting, Linked b.blocks id target
  stays : ∀ (id : Nat) (c : Block), b.blocks[id]? = some c → c.terminator ≠ .ret

namespace Flow

variable {waiting : List Nat} {b b' : Builder}

theorem start (name : String) : Flow [] (Builder.start name) := by
  constructor
  · intro id hid
    have h0 : id = 0 := by simpa [Builder.start] using hid
    exact ⟨0, List.mem_singleton_self _, h0 ▸ .refl⟩
  · intro id c hc
    cases id with
    | zero =>
      cases hc
      exact Terminator.noConfusion
    | succ id => simp [Builder.start] at hc

theorem append (h : Flow waiting b) (hb : b.Open) (ha : Appends b b') : Flow waiting b' := by
  constructor
  · intro id hid
    rw [ha.size] at hid
    obtain ⟨target, ht, hl⟩ := h.drains id hid
    rw [ha.current]
    exact ⟨target, ht, hl.mono (ha.within hb)⟩
  · intro id c hc
    by_cases hid : id = b.current
    · obtain ⟨d, hd, -⟩ := hb
      obtain ⟨c', hc', -, ht⟩ := ha.own d hd
      rw [hid, hc'] at hc
      cases hc
      rw [ht]
      exact h.stays _ d hd
    · exact h.stays id c ((ha.others id hid).symm.trans hc)

theorem create (h : Flow waiting b) : Flow (b.blocks.size :: waiting) b.createBlock.2 := by
  constructor
  · intro id hid
    rw [createBlock_size] at hid
    by_cases hnew : id = b.blocks.size
    · exact ⟨id, by simp [hnew], .refl⟩
    · obtain ⟨target, ht, hl⟩ := h.drains id (by omega)
      refine ⟨target, ?_, hl.mono (within_createBlock b)⟩
      rcases List.mem_cons.mp ht with rfl | ht
      · exact List.mem_cons_self
      · exact List.mem_cons_of_mem _ (List.mem_cons_of_mem _ ht)
  · intro id c hc
    rw [createBlock_getElem?] at hc
    split at hc
    · cases hc
      exact Terminator.noConfusion
    · exact h.stays id c hc

theorem leave {t : Terminator} {next : Nat} (h : Flow waiting b) (hb : b.Open)
    (hd : ∃ target ∈ t.successors, ∃ id ∈ waiting, Linked b.blocks target id) :
    Flow (waiting.erase next) (b.leave t next) := by
  have hwithin := within_leave hb t next
  obtain ⟨target, htarget, last, hlast, hlinked⟩ := hd
  obtain ⟨d, hcur, -⟩ := hb
  have hleft : (b.leave t next).blocks[b.current]? = some { d with terminator := t } := by
    rw [leave_getElem?, if_pos rfl, hcur, Option.map_some]
  have hon : Linked (b.leave t next).blocks b.current last :=
    .head ⟨_, hleft, htarget⟩ (hlinked.mono hwithin)
  have hkept : ∀ id ∈ waiting, id ∈ next :: waiting.erase next := by
    intro id hid
    by_cases hn : id = next
    · exact hn ▸ List.mem_cons_self
    · exact List.mem_cons_of_mem _ ((List.mem_erase_of_ne hn).mpr hid)
  constructor
  · intro id hid
    rw [leave_size] at hid
    obtain ⟨j, hj, hl⟩ := h.drains id hid
    -- what led to the block that is left leads on through it, to one that waits
    rcases List.mem_cons.mp hj with rfl | hj
    · exact ⟨last, hkept last hlast, (hl.mono hwithin).trans hon⟩
    · exact ⟨j, hkept j hj, hl.mono hwithin⟩
  · intro id c hc
    by_cases hid : id = b.current
    · rw [hid, hleft] at hc
      cases hc
      intro hret
      have : t = .ret := hret
      simp [this, Terminator.successors] at htarget
    · rw [leave_getElem?, if_neg hid] at hc
      exact h.stays id c hc

end Flow

theorem Built.flow {m : Module} {b b' : Builder} {waiting : List Nat} (hb : b.Open)
    (hf : Flow [] b) (h : Built m b waiting b') : Flow waiting b' := by
  induction h with
  | start => exact hf
  | slot name ty h ih => exact ih.append (h.frame hb).opened (.slot _ name ty)
  | compute h _ _ _ ih => exact ih.append (h.frame hb).opened (.compute _ _ _)
  | perform h _ _ _ ih => exact ih.append (h.frame hb).opened (.push _ _)
  | create _ ih => exact ih.create
  | leave h _ _ hd _ ih => exact ih.leave (h.frame hb).opened hd

def Function.Returns (f : Function) (id : Nat) : Prop :=
  ∃ c, f.blocks[id]? = some c ∧ c.terminator = .ret

/-- One block returns; every block is reached from the first one, and leads to that one. -/
structure Function.Structured (f : Function) : Prop where
  reached : ∀ id < f.blocks.size, Linked f.blocks 0 id
  exits : ∃ exit, (∀ id, f.Returns id ↔ id = exit) ∧
    ∀ id < f.blocks.size, Linked f.blocks id exit

theorem Built.structured {m : Module} {name : String} {b : Builder}
    (h : Built m (Builder.start name) [] b) : (b.leave .ret b.current).finish.Structured := by
  have hstart := Builder.start_open name
  have hopen := (h.frame hstart).opened
  have hflow := h.flow hstart (.start name)
  refine ⟨h.finish_sound.linked, b.current, fun id => ⟨?_, ?_⟩, fun id hid => ?_⟩
  · intro hret
    obtain ⟨c, hc, ht⟩ := hret
    have hget : (b.leave .ret b.current).blocks[id]? = some c := hc
    by_cases hid : id = b.current
    · exact hid
    · rw [leave_getElem?, if_neg hid] at hget
      exact absurd ht (hflow.stays id c hget)
  · intro hid
    obtain ⟨d, hd, -⟩ := hopen
    have hget := b.leave_getElem? .ret b.current b.current
    rw [if_pos rfl, hd, Option.map_some] at hget
    exact ⟨_, hid ▸ hget, rfl⟩
  · have hlt : id < b.blocks.size := by simpa [Builder.finish] using hid
    obtain ⟨target, ht, hl⟩ := hflow.drains id hlt
    obtain rfl := List.mem_singleton.mp ht
    exact hl.mono (within_leave hopen .ret b.current)

end C1Lang.IR
