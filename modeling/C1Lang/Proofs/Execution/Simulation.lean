import C1Lang.Proofs.Execution.Machine

/-!
# Following a run

`Follows m n c r done` says that the machine does from `c` on what the run of a program with the
result `r` says. It gets to a configuration that `done` describes, it traps, or it goes on for
`n` steps when the program ran out of fuel. A program that makes no sense is not followed at all.
Runs are followed piece by piece (`Follows.bind`), and the machine can do nothing else
(`steps_eq_of_steps`).
-/

namespace C1Lang.Execution

open IR

inductive Steps (m : Module) : Config → Config → Prop
  | refl {c : Config} : Steps m c c
  | head {c c' c'' : Config} : step m c = .ok (.inl c') → Steps m c' c'' → Steps m c c''

inductive Alive (m : Module) : Nat → Config → Prop
  | zero {c : Config} : Alive m 0 c
  | succ {n : Nat} {c c' : Config} : step m c = .ok (.inl c') → Alive m n c' → Alive m (n + 1) c

variable {m : Module} {n : Nat} {c c' : Config}

theorem Steps.one (h : step m c = .ok (.inl c')) : Steps m c c' := .head h .refl

theorem Steps.trans {c'' : Config} (h : Steps m c c') (k : Steps m c' c'') : Steps m c c'' := by
  induction h with
  | refl => exact k
  | head hs _ ih => exact .head hs (ih k)

theorem Alive.pred (h : Alive m (n + 1) c) : Alive m n c := by
  induction n generalizing c with
  | zero => exact .zero
  | succ n ih =>
    cases h with
    | succ hs h => exact .succ hs (ih h)

theorem Alive.mono {k : Nat} (h : Alive m n c) (hk : k ≤ n) : Alive m k c := by
  induction n with
  | zero =>
    obtain rfl : k = 0 := by omega
    exact .zero
  | succ n ih =>
    by_cases hn : k = n + 1
    · exact hn ▸ h
    · exact ih h.pred (by omega)

theorem Alive.of_steps (hs : Steps m c c') (h : Alive m n c') : Alive m n c := by
  induction hs with
  | refl => exact h
  | head hs _ ih => exact (Alive.succ hs (ih h)).pred

theorem Alive.exhausted (h : Alive m n c) : steps m n c = .error .exhausted := by
  induction h with
  | zero => rfl
  | succ hs _ ih => simp only [steps, hs, ih]

theorem steps_succ {r : Except Halt Memory} (h : steps m n c = r)
    (hr : r ≠ .error .exhausted) : steps m (n + 1) c = r := by
  induction n generalizing c with
  | zero => exact absurd h.symm hr
  | succ n ih =>
    rw [steps] at h ⊢
    cases hs : step m c with
    | error e =>
      rw [hs] at h
      exact h
    | ok d =>
      rw [hs] at h
      cases d with
      | inl c' => exact ih h
      | inr globals => exact h

theorem steps_add {r : Except Halt Memory} (h : steps m n c = r)
    (hr : r ≠ .error .exhausted) (k : Nat) : steps m (n + k) c = r := by
  induction k with
  | zero => exact h
  | succ k ih => exact steps_succ ih hr

theorem steps_unique {k : Nat} {r r' : Except Halt Memory} (h : steps m n c = r)
    (h' : steps m k c = r') (hr : r ≠ .error .exhausted) (hr' : r' ≠ .error .exhausted) :
    r = r' := by
  rw [← steps_add h hr k, Nat.add_comm, steps_add h' hr' n]

theorem steps_of_steps {r : Except Halt Memory} (hs : Steps m c c') (h : steps m n c' = r) :
    ∃ k, steps m k c = r := by
  induction hs with
  | refl => exact ⟨n, h⟩
  | head hstep _ ih =>
    obtain ⟨k, hk⟩ := ih h
    refine ⟨k + 1, ?_⟩
    rw [steps, hstep]
    exact hk

variable {α β : Type}

def Follows (m : Module) (n : Nat) (c : Config) (r : Except Halt α)
    (done : α → Config → Prop) : Prop :=
  match r with
  | .ok a => ∃ c', Steps m c c' ∧ done a c'
  | .error .trap => ∃ c', Steps m c c' ∧ step m c' = .error .trap
  | .error .exhausted => Alive m n c
  | .error .stuck => False

namespace Follows

variable {r : Except Halt α} {done done' : α → Config → Prop}

theorem pure {a : α} (h : done a c) : Follows m n c (.ok a) done := ⟨c, .refl, h⟩

theorem of_steps (hs : Steps m c c') (h : Follows m n c' r done) : Follows m n c r done := by
  unfold Follows at h ⊢
  split at h
  · obtain ⟨c'', hs', hd⟩ := h
    exact ⟨c'', hs.trans hs', hd⟩
  · obtain ⟨c'', hs', ht⟩ := h
    exact ⟨c'', hs.trans hs', ht⟩
  · exact .of_steps hs h
  · exact h

/-- A step pays for one unit of fuel. -/
theorem of_step (hs : step m c = .ok (.inl c')) (h : Follows m n c' r done) :
    Follows m (n + 1) c r done := by
  unfold Follows at h ⊢
  split at h
  · obtain ⟨c'', hs', hd⟩ := h
    exact ⟨c'', .head hs hs', hd⟩
  · obtain ⟨c'', hs', ht⟩ := h
    exact ⟨c'', .head hs hs', ht⟩
  · exact .succ hs h
  · exact h

theorem mono (h : Follows m n c r done) (hd : ∀ a c', done a c' → done' a c') :
    Follows m n c r done' := by
  unfold Follows at h ⊢
  split at h
  · obtain ⟨c', hs, h⟩ := h
    exact ⟨c', hs, hd _ _ h⟩
  · exact h
  · exact h
  · exact h

theorem after (h : Follows m n c r done)
    (hd : ∀ a c', done a c' → ∃ c'', Steps m c' c'' ∧ done' a c'') : Follows m n c r done' := by
  unfold Follows at h ⊢
  split at h
  · obtain ⟨c', hs, h⟩ := h
    obtain ⟨c'', hs', h'⟩ := hd _ _ h
    exact ⟨c'', hs.trans hs', h'⟩
  · exact h
  · exact h
  · exact h

theorem weaken {k : Nat} (h : Follows m n c r done) (hk : k ≤ n) : Follows m k c r done := by
  unfold Follows at h ⊢
  split at h
  · exact h
  · exact h
  · exact h.mono hk
  · exact h

theorem bind {f : α → Except Halt β} {done' : β → Config → Prop} (h : Follows m n c r done)
    (hf : ∀ a c', done a c' → Follows m n c' (f a) done') :
    Follows m n c (r >>= f) done' := by
  cases r with
  | ok a =>
    obtain ⟨c', hs, hd⟩ := h
    exact of_steps hs (hf a c' hd)
  | error e =>
    cases e with
    | trap => exact h
    | exhausted => exact h
    | stuck => exact h

end Follows

end C1Lang.Execution
