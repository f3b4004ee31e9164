import C1Lang.Proofs.Lower.Code

/-!
# Lowering of expressions

Lowering an expression appends typed code to the current block and changes nothing else, whether
it succeeds or stops. It succeeds with the code of the expression, in an operand of the type of its
kind that is a constant or was written in the current block; it stops when the expression has no
kind (`rvalue_ends`). This needs the scopes to be true to the slots and globals that exist
(`Ready`).
-/

namespace C1Lang

structure Binding.Fits (m : IR.Module) (f : IR.Function) (x : Binding) : Prop where
  scalar : x.isArray = false →
    m.operandType? f x.storage.operand = some (.pointer x.kind.ty)
  array : x.isArray = true →
    ∃ n, m.operandType? f x.storage.operand = some (.pointer (.array x.kind.scalar n))

theorem Binding.Fits.mono {m n : IR.Module} {f g : IR.Function} {x : Binding}
    (h : x.Fits m f) (hm : m.Within n) (hf : f.Within g) : x.Fits n g := by
  refine ⟨fun hx => IR.operandType?_mono hm hf (h.scalar hx), fun hx => ?_⟩
  obtain ⟨k, hk⟩ := h.array hx
  exact ⟨k, IR.operandType?_mono hm hf hk⟩

def Scopes.Fits (m : IR.Module) (f : IR.Function) (s : Scopes) : Prop :=
  ∀ scope ∈ s.all, ∀ x ∈ scope.bindings, x.2.Fits m f

theorem Scopes.Fits.mono {m n : IR.Module} {f g : IR.Function} {s : Scopes} (h : s.Fits m f)
    (hm : m.Within n) (hf : f.Within g) : s.Fits n g :=
  fun scope hs x hx => (h scope hs x hx).mono hm hf

theorem Scopes.Fits.lookup {m : IR.Module} {f : IR.Function} {s : Scopes} (h : s.Fits m f)
    {name : String} {x : Binding} (hx : s.lookup name = some x) : x.Fits m f := by
  obtain ⟨scope, hs, hf⟩ := List.exists_of_findSome?_eq_some hx
  exact h scope hs _ (Lower.mem_of_lookup hf)

namespace Lower

open IR

structure Holds (m : Module) (b : Builder) (o : Operand) (ty : Ty) : Prop where
  type : m.operandType? b.finish o = some ty
  written : ∀ t, o = .temp t → t ∈ writes b.code

theorem Holds.mono {m : Module} {b b' : Builder} {o : Operand} {ty : Ty} (h : Holds m b o ty)
    (hb : b.Open) (ha : Appends b b') : Holds m b' o ty := by
  refine ⟨operandType?_mono (.refl m) (ha.within hb) h.type, fun t ht => ?_⟩
  obtain ⟨rest, hrest⟩ := ha.code hb
  rw [← hrest, writes, List.filterMap_append]
  exact List.mem_append_left _ (h.written t ht)

theorem Holds.value (m : Module) (b : Builder) (v : Value) :
    Holds m b (.const v.toConst) v.kind.ty := by
  refine ⟨?_, fun t ht => by cases ht⟩
  cases v <;> rfl

theorem Holds.of_fits {m : Module} {b : Builder} {x : Storage} {ty : Ty}
    (h : m.operandType? b.finish x.operand = some ty) : Holds m b x.operand ty :=
  ⟨h, fun t ht => by cases x <;> cases ht⟩

/-- A function is being built, its current block is open, and the tables are true to it. -/
structure Ready (s : State) (b : Builder) : Prop where
  builder : s.builder = some b
  opened : b.Open
  fits : s.scopes.Fits s.module b.finish
  callees : ∀ x ∈ s.functions, x.2.id < s.module.functions.size

/-- From `s` to `s'` code was appended to the current block, and nothing else happened. -/
structure Emits (s : State) (b : Builder) (s' : State) (b' : Builder) : Prop where
  state : s' = s.building b'
  built : Built s.module b [] b'
  appends : Appends b b'

theorem Emits.refl {s : State} {b : Builder} (h : Ready s b) : Emits s b s b := by
  refine ⟨?_, .start, .refl b⟩
  unfold State.building
  rw [← h.builder]

theorem Emits.trans {s s' s'' : State} {b b' b'' : Builder} (hb : b.Open)
    (h : Emits s b s' b') (k : Emits s' b' s'' b'') : Emits s b s'' b'' := by
  obtain ⟨rfl, hbuilt, happ⟩ := h
  obtain ⟨rfl, hbuilt', happ'⟩ := k
  exact ⟨rfl, hbuilt.trans hb hbuilt', happ.trans happ'⟩

theorem Emits.ready {s s' : State} {b b' : Builder} (h : Emits s b s' b') (hr : Ready s b) :
    Ready s' b' := by
  obtain ⟨rfl, hbuilt, happ⟩ := h
  exact ⟨rfl, happ.opened hr.opened, hr.fits.mono (.refl _) (happ.within hr.opened), hr.callees⟩

def Emitted (s : State) (b : Builder) (s' : State) : Prop := ∃ b', Emits s b s' b'

theorem Emitted.of {s s' s'' : State} {b b' : Builder} (hb : b.Open) (h : Emits s b s' b')
    (k : Emitted s' b' s'') : Emitted s b s'' := by
  obtain ⟨b'', k⟩ := k
  exact ⟨b'', h.trans hb k⟩

theorem compute_ends {s : State} {b : Builder} {stopped : State → Prop} (ty : Ty)
    (instr : Nat → Instr) (hr : Ready s b)
    (hd : (instr b.temps.size).dest? = some b.temps.size)
    (ht : (instr b.temps.size).Typed s.module (b.addTemp ty).2.finish)
    (hw : ∀ t, .temp t ∈ (instr b.temps.size).operands → t ∈ writes b.code) :
    Ends (compute ty instr) s
      (fun o s' => o = .temp b.temps.size ∧
        Emits s b s' (b.compute ty (instr b.temps.size)) ∧
        Holds s.module (b.compute ty (instr b.temps.size)) o ty) stopped := by
  refine .of_eq (compute_eq hr.builder hr.opened ty instr) ?_
  refine ⟨rfl, ⟨rfl, .compute .start hd ht hw, .compute b ty _⟩, ?_, ?_⟩
  · show (b.temps.push ty)[b.temps.size]? = some ty
    simp
  · intro t ht
    cases ht
    rw [Builder.compute_code hr.opened, writes, List.filterMap_append]
    simp [hd]

theorem Holds.temp {m : Module} {b : Builder} {o : Operand} {ty : Ty} (h : Holds m b o ty)
    (hb : b.Open) (ty' : Ty) : m.operandType? (b.addTemp ty').2.finish o = some ty :=
  operandType?_mono (.refl m) ((Appends.temp b ty').within hb) h.type

theorem coerce_ends {s : State} {b : Builder} {o : Operand} {source : Kind} (target : Kind)
    {stopped : State → Prop} (hr : Ready s b) (ho : Holds s.module b o source.ty) :
    Ends (coerce o source target) s
      (fun o' s' => ∃ b', Emits s b s' b' ∧ Holds s.module b' o' target.ty ∧
        Coerces b o source target b' o') stopped := by
  unfold coerce
  split
  · next heq =>
    subst heq
    exact .pure ⟨b, .refl hr, ho, .same⟩
  · next hne =>
    have hw : ∀ t, .temp t ∈ [o] → t ∈ writes b.code := fun t ht =>
      ho.written t (List.mem_singleton.mp ht).symm
    have hty := ho.type
    split
    · next n =>
      cases source with
      | float => cases hty
      | int =>
        cases target with
        | int => exact absurd rfl hne
        | float => exact .pure ⟨b, .refl hr, .value _ _ (.float n.toFloat), .int⟩
    · next x =>
      cases source with
      | int => cases hty
      | float =>
        cases target with
        | float => exact absurd rfl hne
        | int => exact .pure ⟨b, .refl hr, .value _ _ (.int x.toInt32), .float⟩
    · split
      · cases source with
        | int =>
          refine (compute_ends _ (.cast · .sitofp o) hr rfl
            (.cast (ho.temp hr.opened _) (addTemp_getElem? b _)) hw).mono ?_ (fun _ h => h)
          intro _ s' hdone
          obtain ⟨rfl, he, ho'⟩ := hdone
          exact ⟨_, he, ho', .toFloat⟩
        | float => exact absurd rfl hne
      · cases source with
        | int => exact absurd rfl hne
        | float =>
          refine (compute_ends _ (.cast · .fptosi o) hr rfl
            (.cast (ho.temp hr.opened _) (addTemp_getElem? b _)) hw).mono ?_ (fun _ h => h)
          intro _ s' hdone
          obtain ⟨rfl, he, ho'⟩ := hdone
          exact ⟨_, he, ho', .toInt⟩

theorem meet_ends {s : State} {b : Builder} {l r : Operand × Kind} {stopped : State → Prop}
    (hr : Ready s b) (hl : Holds s.module b l.1 l.2.ty) (hr' : Holds s.module b r.1 r.2.ty) :
    Ends (meet l r) s (fun x s' => ∃ b', Emits s b s' b' ∧ Holds s.module b' x.1 x.2.2.ty ∧
      Holds s.module b' x.2.1 x.2.2.ty ∧ x.2.2 = l.2.unify r.2 ∧
      Meets b l.1 l.2 r.1 r.2 b' x.1 x.2.1) stopped := by
  unfold meet
  refine (coerce_ends _ hr hl).bind ?_ (fun _ h => h)
  intro o s₁ hdone
  obtain ⟨b₁, he₁, ho, hc₁⟩ := hdone
  have hr₁ := he₁.ready hr
  obtain ⟨rfl, -, ha₁⟩ := id he₁
  refine (coerce_ends _ hr₁ (hr'.mono hr.opened ha₁)).bind ?_ (fun _ h => h)
  intro o' s₂ hdone
  obtain ⟨b₂, he₂, ho', hc₂⟩ := hdone
  exact .pure ⟨b₂, he₁.trans hr.opened he₂, ho.mono hr₁.opened he₂.appends, ho', rfl,
    .mk hc₁ hc₂⟩

def Evaluates (s : State) (b : Builder) (ty : Kind → Ty)
    (code : Builder → Operand → Kind → Prop) (r : Evaluated) (s' : State) : Prop :=
  ∃ b' o k, r = .runtime o k ∧ Emits s b s' b' ∧ Holds s.module b' o (ty k) ∧ code b' o k

def Gives (s : State) (b : Builder) (ty : Kind → Ty)
    (code : Builder → Operand → Kind → Prop) (r : Operand × Kind) (s' : State) : Prop :=
  ∃ b', Emits s b s' b' ∧ Holds s.module b' r.1 (ty r.2) ∧ code b' r.1 r.2

/-- A step that stops has appended code, and has a reason. -/
def Rejects (s : State) (b : Builder) (reason : Prop) (s' : State) : Prop :=
  Emitted s b s' ∧ reason

theorem Rejects.of {s s' s'' : State} {b b' : Builder} {reason reason' : Prop} (hb : b.Open)
    (h : Emits s b s' b') (k : Rejects s' b' reason s'') (hr : reason → reason') :
    Rejects s b reason' s'' :=
  ⟨k.1.of hb h, hr k.2⟩

theorem asOperand_ends {s : State} {b : Builder} {step : Lower Evaluated}
    {code : Builder → Operand → Kind → Prop} {stopped : State → Prop}
    (h : Ends step s (Evaluates s b Kind.ty code) stopped) :
    Ends (asOperand step) s (Gives s b Kind.ty code) stopped := by
  unfold asOperand
  refine h.bind ?_ (fun _ h => h)
  intro r s' hdone
  obtain ⟨b', o, k, rfl, he, ho⟩ := hdone
  exact .pure ⟨b', he, ho⟩

theorem arith?_scalar {op : BinaryOp} {k : Kind} {a : Arith} (h : arith? op k = some a) :
    a.scalar = k.scalar := by
  cases op <;> cases k <;> cases h <;> rfl

theorem arith?_isSome {op : BinaryOp} {k : Kind} (h : ¬ (op = .mod ∧ k = .float)) :
    ∃ a, arith? op k = some a := by
  cases op <;> cases k <;> first | exact ⟨_, rfl⟩ | exact absurd ⟨rfl, rfl⟩ h

theorem binary_ends {s : State} {b : Builder} {l r : Operand × Kind} (op : BinaryOp)
    (span : Span) (hr : Ready s b) (hl : Holds s.module b l.1 l.2.ty)
    (hr' : Holds s.module b r.1 r.2.ty) :
    Ends (binary op span l r) s
      (Evaluates s b Kind.ty fun b' o k => k = l.2.unify r.2 ∧ ∃ b₁ x y a,
        Meets b l.1 l.2 r.1 r.2 b₁ x y ∧ arith? op k = some a ∧
        b' = b₁.compute k.ty (.binary b₁.temps.size a x y) ∧ o = .temp b₁.temps.size)
      (Rejects s b (op = .mod ∧ l.2.unify r.2 = .float)) := by
  unfold binary
  split
  · next hop => exact .report rfl ⟨⟨b, .refl hr⟩, by simpa using hop⟩
  · next hop =>
    refine (meet_ends hr hl hr').bind ?_ (fun s' (h : Rejects s b _ s') => h)
    intro result s₁ hdone
    obtain ⟨x, y, k⟩ := result
    obtain ⟨b₁, he₁, hx, hy, rfl, hm⟩ := hdone
    have hr₁ := he₁.ready hr
    obtain ⟨rfl, -, -⟩ := id he₁
    obtain ⟨a, ha⟩ := arith?_isSome (by simpa using hop)
    have hs := arith?_scalar ha
    simp only [ha]
    have hw : ∀ t, .temp t ∈ [x, y] → t ∈ writes b₁.code := by
      intro t ht
      rcases List.mem_cons.mp ht with h | h
      · exact hx.written t h.symm
      · exact hy.written t (List.mem_singleton.mp h).symm
    have ht := fun o (ho : Holds s.module b₁ o (Kind.ty (l.2.unify r.2))) =>
      ho.temp hr₁.opened (Kind.ty (l.2.unify r.2))
    refine (compute_ends _ (.binary · a x y) hr₁ rfl (.binary ?_ ?_ ?_) hw).bind ?_
      (fun s' (h : Rejects s b _ s') => h)
    · rw [hs]; exact ht x hx
    · rw [hs]; exact ht y hy
    · rw [hs]; exact addTemp_getElem? b₁ _
    · intro _ s₂ hdone
      obtain ⟨rfl, he₂, ho⟩ := hdone
      exact .pure ⟨_, _, _, rfl, he₁.trans hr.opened he₂, ho, rfl, b₁, x, y, a, hm, ha, rfl, rfl⟩

theorem unary_ends {s : State} {b : Builder} {o : Operand × Kind} (op : UnaryOp)
    (hr : Ready s b) (ho : Holds s.module b o.1 o.2.ty) {stopped : State → Prop} :
    Ends (unary op o) s
      (Evaluates s b Kind.ty fun b' x k => k = o.2 ∧
        match op with
        | .plus => b' = b ∧ x = o.1
        | .neg => b' = b.compute k.ty (.unary b.temps.size (negation k) o.1) ∧
            x = .temp b.temps.size) stopped := by
  unfold unary
  cases op with
  | plus => exact .pure ⟨b, o.1, o.2, rfl, .refl hr, ho, rfl, rfl, rfl⟩
  | neg =>
    have hs : (negation o.2).scalar = o.2.scalar := by cases o.2 <;> rfl
    refine (compute_ends _ (.unary · (negation o.2) o.1) hr rfl (.unary ?_ ?_) ?_).bind ?_
      (fun _ h => h)
    · rw [hs]; exact ho.temp hr.opened _
    · rw [hs]; exact addTemp_getElem? b _
    · exact fun t ht => ho.written t (List.mem_singleton.mp ht).symm
    · intro _ s₁ hdone
      obtain ⟨rfl, he₁, hx⟩ := hdone
      exact .pure ⟨_, _, o.2, rfl, he₁, hx, rfl, rfl, rfl⟩

def accessTy : Access → Kind → Ty
  | .read, k => k.ty
  | .address, k => .pointer k.ty

def Values (ctx : Context) (e : Expr) (s : State) (b : Builder) : Prop :=
  Ends (rvalue ctx e) s (Gives s b Kind.ty (Lowers s.scopes b e))
    (Rejects s b (¬ e.Kinded s.scopes.static))

theorem placeAddress_ends {s : State} {b : Builder} {x : Binding} {ctx : Context} (name : String)
    (span : Span) (i : Option Expr) (hr : Ready s b) (hx : x.Fits s.module b.finish)
    (hi : ∀ e ∈ i, Values ctx e s b) :
    Ends (placeAddress name span x (i.map fun e => (e.span, rvalue ctx e))) s
      (fun o s' => ∃ b', Emits s b s' b' ∧ Holds s.module b' o (.pointer x.kind.ty) ∧
        Points s.scopes b x i b' o)
      (Rejects s b (¬ Reaches s.scopes.static x.usage i)) := by
  have hstay : Emitted s b s := ⟨b, .refl hr⟩
  cases i with
  | none =>
    cases ha : x.isArray with
    | false =>
      simp only [placeAddress, ha, Option.map_none]
      exact .pure ⟨b, .refl hr, .of_fits (hx.scalar ha), .scalar ha⟩
    | true =>
      simp only [placeAddress, ha, Option.map_none]
      exact .report rfl ⟨hstay, by simp [Reaches, Binding.usage, ha]⟩
  | some e =>
    cases ha : x.isArray with
    | false =>
      simp only [placeAddress, ha, Option.map_some]
      exact .report rfl ⟨hstay, by simp [Reaches, Binding.usage, ha]⟩
    | true =>
      simp only [placeAddress, ha, Option.map_some]
      refine (hi e rfl).bind ?_ fun _ h => ⟨h.1, fun hk => h.2 ⟨_, hk.2⟩⟩
      intro result s₁ hdone
      obtain ⟨o, k⟩ := result
      obtain ⟨b₁, he₁, ho, hl⟩ := hdone
      have hr₁ := he₁.ready hr
      obtain ⟨n, hn⟩ := hx.array ha
      obtain ⟨rfl, -, ha₁⟩ := id he₁
      dsimp only
      split
      · next hk =>
        subst hk
        have hbase := (Holds.of_fits hn).mono hr.opened ha₁
        refine (compute_ends _ (.elementPtr · x.storage.operand o) hr₁ rfl
          (.elementPtr (hbase.temp hr₁.opened _) (ho.temp hr₁.opened _) (addTemp_getElem? b₁ _))
          ?_).mono ?_ (fun s' (h : Rejects s b _ s') => h)
        · intro t ht
          rcases List.mem_cons.mp ht with h | h
          · exact hbase.written t h.symm
          · exact ho.written t (List.mem_singleton.mp h).symm
        · intro _ s₂ hdone
          obtain ⟨rfl, he₂, ho₂⟩ := hdone
          exact ⟨_, he₁.trans hr.opened he₂, ho₂, .array ha hl⟩
      · next hk =>
        exact .report rfl ⟨⟨b₁, he₁⟩, fun hkind => hk (hl.hasKind.unique hkind.2)⟩

def Accesses (σ : Scopes) (b : Builder) (p : Place) : Access → Builder → Operand → Kind → Prop
  | .read => Lowers σ b p.toExpr
  | .address => Locates σ b p

def Inaccessible (Γ : Env Usage) (p : Place) : Access → Prop
  | .read => ¬ p.toExpr.Kinded Γ
  | .address => ¬ p.Assignable Γ

theorem inaccessible_of_find? {Γ : Env Usage} {p : Place} {access : Access}
    (h : ∀ t, Γ.find? p.root = some t → ¬ Reaches Γ t p.index ∨
      access = .address ∧ t.constant = true) : Inaccessible Γ p access := by
  cases access with
  | read =>
    intro hex
    obtain ⟨k, hk⟩ := hex
    obtain ⟨t, ht, hr, -⟩ := hasKind_toExpr.mp hk
    rcases h t ht with hn | ⟨hn, -⟩
    · exact hn hr
    · cases hn
  | address =>
    intro hex
    obtain ⟨t, ht, hc, hr⟩ := hex
    rcases h t ht with hn | ⟨-, hn⟩
    · exact hn hr
    · simp [hc] at hn

theorem place_ends {s : State} {b : Builder} (ctx ctx' : Context) (hc : ctx.constant = false)
    (p : Place) (hr : Ready s b) (hi : ∀ e ∈ p.index, Values ctx' e s b) :
    Ends (place ctx p.root p.span (p.index.map fun e => (e.span, rvalue ctx' e))) s
      (Evaluates s b (accessTy ctx.access) (Accesses s.scopes b p ctx.access))
      (Rejects s b (Inaccessible s.scopes.static p ctx.access)) := by
  have hfind := Scopes.find?_static s.scopes p.root
  unfold place
  rw [if_neg (by simp [hc])]
  apply Ends.get_bind
  split
  · next hx =>
    refine .report rfl ⟨⟨b, .refl hr⟩, inaccessible_of_find? fun t ht => ?_⟩
    rw [hfind, hx] at ht
    cases ht
  · next x hx =>
    rw [hx, Option.map_some] at hfind
    split
    · next hacc =>
      refine .report rfl ⟨⟨b, .refl hr⟩, inaccessible_of_find? fun t ht => ?_⟩
      rw [hfind] at ht
      cases ht
      have hconst : ctx.access = .address ∧ x.constant = true := by simpa using hacc
      exact .inr hconst
    · next hacc =>
      refine (placeAddress_ends p.root p.span p.index hr (hr.fits.lookup hx) hi).bind ?_ ?_
      · intro o s₁ hdone
        obtain ⟨b₁, he₁, ho, hp⟩ := hdone
        have hr₁ := he₁.ready hr
        obtain ⟨rfl, -, -⟩ := id he₁
        cases ha : ctx.access with
        | address =>
          have hconst : x.constant = false := by simpa [ha] using hacc
          exact .pure ⟨b₁, o, x.kind, rfl, he₁, ho, .mk hx hconst hp⟩
        | read =>
          refine (compute_ends _ (.load · o) hr₁ rfl
            (.load (ho.temp hr₁.opened _) (addTemp_getElem? b₁ _))
            (fun t ht => ho.written t (List.mem_singleton.mp ht).symm)).bind ?_
            (fun s' (h : Rejects s b _ s') => h)
          intro _ s₂ hdone
          obtain ⟨rfl, he₂, ho'⟩ := hdone
          exact .pure ⟨_, _, x.kind, rfl, he₁.trans hr.opened he₂, ho', hp.lowers hx⟩
      · intro s' hdone
        obtain ⟨hemit, hreach⟩ := hdone
        refine ⟨hemit, inaccessible_of_find? fun t ht => ?_⟩
        rw [hfind] at ht
        cases ht
        exact .inl hreach

theorem rvalue_ends {s : State} {b : Builder} (ctx : Context) (e : Expr) (hr : Ready s b) :
    Values ctx e s b := by
  apply asOperand_ends
  induction e generalizing s b with
  | literal v span =>
    exact .pure ⟨b, _, _, rfl, .refl hr, .value _ b v, .literal v span⟩
  | binary op l r span ihl ihr =>
    refine (asOperand_ends (ihl hr)).bind ?_ ?_
    · intro result s₁ hdone
      obtain ⟨x, j⟩ := result
      obtain ⟨b₁, he₁, hx, hl⟩ := hdone
      have hr₁ := he₁.ready hr
      obtain ⟨rfl, -, -⟩ := id he₁
      refine (asOperand_ends (ihr hr₁)).bind ?_ ?_
      · intro result s₂ hdone
        obtain ⟨y, k⟩ := result
        obtain ⟨b₂, he₂, hy, hl'⟩ := hdone
        have hr₂ := he₂.ready hr₁
        obtain ⟨rfl, -, -⟩ := id he₂
        have he := he₁.trans hr.opened he₂
        refine (binary_ends op span hr₂ (hx.mono hr₁.opened he₂.appends) hy).mono ?_ ?_
        · intro _ s₃ hdone
          obtain ⟨b₃, o, _, rfl, he₃, ho, rfl, b₄, x', y', a, hm, ha, rfl, rfl⟩ := hdone
          exact ⟨_, _, _, rfl, he.trans hr.opened he₃, ho, .binary hl hl' hm ha⟩
        · refine fun s₃ h => h.of hr.opened he ?_
          intro hrem hex
          obtain ⟨rfl, hfloat⟩ := hrem
          obtain ⟨_, hk⟩ := hex
          cases hk with
          | binary hj hk himp =>
            obtain ⟨rfl, rfl⟩ := himp rfl
            rw [hl.hasKind.unique hj, hl'.hasKind.unique hk] at hfloat
            cases hfloat
      · intro s₂ h
        exact h.of hr.opened he₁ fun hn hk => hn hk.right
    · intro s₁ hdone
      obtain ⟨hemit, hn⟩ := hdone
      exact ⟨hemit, fun hk => hn hk.left⟩
  | unary op e span ih =>
    refine (asOperand_ends (ih hr)).bind ?_ ?_
    · intro result s₁ hdone
      obtain ⟨x, k⟩ := result
      obtain ⟨b₁, he₁, hx, hl⟩ := hdone
      have hr₁ := he₁.ready hr
      obtain ⟨rfl, -, -⟩ := id he₁
      refine (unary_ends op hr₁ hx).mono ?_ (fun s' (h : Rejects s b _ s') => h)
      intro _ s₂ hdone
      obtain ⟨b₂, o, _, rfl, he₂, ho, rfl, hop⟩ := hdone
      refine ⟨b₂, o, _, rfl, he₁.trans hr.opened he₂, ho, ?_⟩
      cases op with
      | plus =>
        obtain ⟨rfl, rfl⟩ := hop
        exact .plus hl
      | neg =>
        obtain ⟨rfl, rfl⟩ := hop
        exact .neg hl
    · intro s₁ hdone
      obtain ⟨hemit, hn⟩ := hdone
      exact ⟨hemit, fun hk => hn hk.operand⟩
  | name name span =>
    exact place_ends _ ctx rfl (.name name span) hr (fun e he => by cases he)
  | element name index span ih =>
    refine place_ends _ ctx rfl (.element name index span) hr ?_
    intro e hc
    cases hc
    exact asOperand_ends (ih hr)

theorem address_ends {s : State} {b : Builder} (ctx : Context) (target : Place)
    (hr : Ready s b) :
    Ends (address ctx target) s
      (Gives s b (fun k => .pointer k.ty) (Locates s.scopes b target))
      (Rejects s b (¬ target.Assignable s.scopes.static)) := by
  have hplace : Ends (expr ctx.address target.toExpr) s
      (Evaluates s b (accessTy .address) (Locates s.scopes b target))
      (Rejects s b (¬ target.Assignable s.scopes.static)) := by
    have h := place_ends ctx.address ctx rfl target hr
      (fun e _ => rvalue_ends ctx e hr)
    cases target <;> exact h
  refine hplace.bind ?_ (fun _ h => h)
  intro r s' hdone
  obtain ⟨b', o, k, rfl, he, ho⟩ := hdone
  exact .pure ⟨b', he, ho⟩

theorem condition_ends {s : State} {b : Builder} (ctx : Context) (c : Condition)
    (hr : Ready s b) :
    Ends (condition ctx c) s
      (fun o s' => ∃ b', Emits s b s' b' ∧ Holds s.module b' o (.scalar .i1) ∧
        Compares s.scopes b c b' o)
      (Rejects s b (¬ c.Correct s.scopes.static)) := by
  refine (rvalue_ends ctx c.left hr).bind ?_ fun _ h => ⟨h.1, fun hc => h.2 hc.1⟩
  intro result s₁ hdone
  obtain ⟨x, j⟩ := result
  obtain ⟨b₁, he₁, hx, hl⟩ := hdone
  have hr₁ := he₁.ready hr
  obtain ⟨rfl, -, -⟩ := id he₁
  refine (rvalue_ends ctx c.right hr₁).bind ?_ fun _ h => h.of hr.opened he₁ fun hn hc => hn hc.2
  intro result s₂ hdone
  obtain ⟨y, k⟩ := result
  obtain ⟨b₂, he₂, hy, hl'⟩ := hdone
  have hr₂ := he₂.ready hr₁
  obtain ⟨rfl, -, -⟩ := id he₂
  refine (meet_ends hr₂ (hx.mono hr₁.opened he₂.appends) hy).bind ?_
    (fun s' (h : Rejects s b _ s') => h)
  intro result s₃ hdone
  obtain ⟨l, r, _⟩ := result
  obtain ⟨b₃, he₃, hl₃, hr₃', rfl, hm⟩ := hdone
  have hr₃ := he₃.ready hr₂
  obtain ⟨rfl, -, -⟩ := id he₃
  have hs : ∀ k, (predicate c.relation k).scalar = k.scalar := by
    intro k
    cases c.relation <;> cases k <;> rfl
  refine (compute_ends _ (.compare · _ l r) hr₃ rfl
    (.compare ?_ ?_ (addTemp_getElem? b₃ _)) ?_).mono ?_
    (fun s' (h : Rejects s b _ s') => h)
  · rw [hs]; exact hl₃.temp hr₃.opened _
  · rw [hs]; exact hr₃'.temp hr₃.opened _
  · intro t ht
    rcases List.mem_cons.mp ht with h | h
    · exact hl₃.written t h.symm
    · exact hr₃'.written t (List.mem_singleton.mp h).symm
  · intro _ s₄ hdone
    obtain ⟨rfl, he₄, ho⟩ := hdone
    exact ⟨_, (he₁.trans hr.opened he₂).trans hr.opened (he₃.trans hr₂.opened he₄), ho,
      .mk hl hl' hm⟩

end Lower

end C1Lang
