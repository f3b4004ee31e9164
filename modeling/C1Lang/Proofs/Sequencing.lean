/-!
# Sequences of steps

A step of the parser or of the lowering gives a result and a new state, or it stops. What a
sequence does is settled by its first step. Two sequences that run side by side, one on the image
of the other's state, stay side by side when each of their steps does (`Mirrors`, `Mirrored`).
-/

namespace C1Lang

variable {ε σ α β : Type} {step : EStateM ε σ α} {f : α → EStateM ε σ β} {s s' : σ}

theorem bind_ok {a : α} (h : step s = .ok a s') : (step >>= f) s = f a s' := by
  show EStateM.bind step f s = _
  unfold EStateM.bind
  rw [h]

theorem bind_error {e : ε} (h : step s = .error e s') : (step >>= f) s = .error e s' := by
  show EStateM.bind step f s = _
  unfold EStateM.bind
  rw [h]

theorem bind_eq_ok {b : β} (h : (step >>= f) s = .ok b s') :
    ∃ a s₁, step s = .ok a s₁ ∧ f a s₁ = .ok b s' := by
  cases hstep : step s with
  | ok a s₁ =>
    rw [bind_ok hstep] at h
    exact ⟨a, s₁, rfl, h⟩
  | error e s₁ =>
    rw [bind_error hstep] at h
    cases h

theorem bind_congr_step {step' : EStateM ε σ α} (h : step s = step' s) :
    (step >>= f) s = (step' >>= f) s := by
  show EStateM.bind step f s = EStateM.bind step' f s
  unfold EStateM.bind
  rw [h]

theorem get_bind (f : σ → EStateM ε σ β) (s : σ) : (get >>= f) s = f s s := rfl

def mapOutcome (e : ε → ε) (m : σ → σ) (g : α → β) :
    EStateM.Result ε σ α → EStateM.Result ε σ β
  | .ok a s => .ok (g a) (m s)
  | .error x s => .error (e x) (m s)

/-- On the image of the state `s` one step does what the image of the other does on `s`. -/
def Mirrors (e : ε → ε) (m : σ → σ) (g : α → β) (step : EStateM ε σ α) (step' : EStateM ε σ β)
    (s : σ) : Prop :=
  step' (m s) = mapOutcome e m g (step s)

namespace Mirrors

variable {e : ε → ε} {m : σ → σ} {g : α → β}

theorem bind {γ δ : Type} {h : γ → δ} {step' : EStateM ε σ β} {next : α → EStateM ε σ γ}
    {next' : β → EStateM ε σ δ} (hs : Mirrors e m g step step' s)
    (hn : ∀ a s', Mirrors e m h (next a) (next' (g a)) s') :
    Mirrors e m h (step >>= next) (step' >>= next') s := by
  unfold Mirrors at hs
  cases hstep : step s with
  | ok a s₁ =>
    rw [hstep] at hs
    have hnext := hn a s₁
    unfold Mirrors at hnext ⊢
    rw [bind_ok hs, bind_ok hstep, hnext]
  | error x s₁ =>
    rw [hstep] at hs
    unfold Mirrors
    rw [bind_error hs, bind_error hstep]
    rfl

theorem get_bind {next : σ → EStateM ε σ α} {next' : σ → EStateM ε σ β}
    (h : Mirrors e m g (next s) (next' (m s)) s) :
    Mirrors e m g (get >>= next) (get >>= next') s := h

theorem modify {change change' : σ → σ} (h : change' (m s) = m (change s)) :
    Mirrors e m id (modify change) (modify change') s :=
  congrArg (EStateM.Result.ok PUnit.unit) h

theorem set {s₁ s₁' : σ} (h : s₁' = m s₁) : Mirrors e m id (set s₁) (set s₁') s :=
  congrArg (EStateM.Result.ok PUnit.unit) h

end Mirrors

def Mirrored (e : ε → ε) (m : σ → σ) (g : α → β) (step : EStateM ε σ α)
    (step' : EStateM ε σ β) : Prop :=
  ∀ s, Mirrors e m g step step' s

namespace Mirrored

variable {e : ε → ε} {m : σ → σ} {g : α → β}

theorem pure {a : α} {b : β} (h : b = g a) :
    Mirrored e m g (Pure.pure a) (Pure.pure b) := by
  subst h
  exact fun s => rfl

theorem throw {x y : ε} (h : y = e x) :
    Mirrored e m g (MonadExcept.throw x) (MonadExcept.throw y) := by
  subst h
  exact fun s => rfl

theorem bind {γ δ : Type} {h : γ → δ} {step' : EStateM ε σ β} {next : α → EStateM ε σ γ}
    {next' : β → EStateM ε σ δ} (hs : Mirrored e m g step step')
    (hn : ∀ a, Mirrored e m h (next a) (next' (g a))) :
    Mirrored e m h (step >>= next) (step' >>= next') :=
  fun s => (hs s).bind fun a s' => hn a s'

theorem ite {c : Prop} [Decidable c] {step₁ step₂ : EStateM ε σ α}
    {step₁' step₂' : EStateM ε σ β} (h₁ : Mirrored e m g step₁ step₁')
    (h₂ : Mirrored e m g step₂ step₂') :
    Mirrored e m g (if c then step₁ else step₂) (if c then step₁' else step₂') := by
  split
  · exact h₁
  · exact h₂

end Mirrored

end C1Lang
