import C1Lang.Proofs.IR.Construction

/-!
# Assembling a module

A module whose names are unique, whose initializers fit and whose functions keep the rules
(`Module.Sound`) has no defects. It stays that way when a global or a function with a new name is
added, and when a function is replaced by one that keeps the rules.
-/

namespace C1Lang.IR

theorem repeated_eq_nil {names : List String} (h : names.Nodup) {seen : List String}
    (hs : ∀ n ∈ names, n ∉ seen) : repeated seen names = [] := by
  induction names generalizing seen with
  | nil => rfl
  | cons n rest ih =>
    obtain ⟨hn, hrest⟩ := List.nodup_cons.mp h
    have hnot : n ∉ seen := hs n List.mem_cons_self
    rw [repeated, if_neg (by simpa using hnot)]
    refine ih hrest fun x hx hmem => ?_
    rcases hmem with _ | ⟨_, hx'⟩
    · exact hn hx
    · exact hs x (List.mem_cons_of_mem _ hx) hx'

theorem globalNameDefects_eq_nil {functions names : List String} (h : names.Nodup)
    (hf : ∀ n ∈ names, n ∉ functions) {seen : List String} (hs : ∀ n ∈ names, n ∉ seen) :
    globalNameDefects functions seen names = [] := by
  induction names generalizing seen with
  | nil => rfl
  | cons n rest ih =>
    obtain ⟨hn, hrest⟩ := List.nodup_cons.mp h
    have hnot : n ∉ seen := hs n List.mem_cons_self
    have hnotf : n ∉ functions := hf n List.mem_cons_self
    rw [globalNameDefects, if_neg (by simpa using hnot), if_neg (by simpa using hnotf)]
    refine ih hrest (fun x hx => hf x (List.mem_cons_of_mem _ hx)) fun x hx hmem => ?_
    rcases hmem with _ | ⟨_, hx'⟩
    · exact hn hx
    · exact hs x (List.mem_cons_of_mem _ hx) hx'

namespace Module

def define (m : Module) (id : Nat) (f : Function) : Module :=
  { m with functions := m.functions.setIfInBounds id f }

def functionNames (m : Module) : List String := m.functions.toList.map (·.name)

def globalNames (m : Module) : List String := m.globals.toList.map (·.name)

structure Sound (m : Module) : Prop where
  functions : m.functionNames.Nodup
  globals : m.globalNames.Nodup
  disjoint : ∀ name ∈ m.globalNames, name ∉ m.functionNames
  initialized : ∀ g ∈ m.globals, g.wellFormed = true
  bodies : ∀ f ∈ m.functions, f.defined = true → f.Sound m

theorem Sound.defects_eq_nil {m : Module} (h : m.Sound) : m.defects = [] := by
  have hfun : repeated [] (m.functions.toList.map (·.name)) = [] :=
    repeated_eq_nil h.functions (fun _ _ => List.not_mem_nil)
  have hglob : globalNameDefects (m.functions.toList.map (·.name)) []
      (m.globals.toList.map (·.name)) = [] :=
    globalNameDefects_eq_nil h.globals h.disjoint (fun _ _ => List.not_mem_nil)
  have hinit : m.globals.toList.filter (!·.wellFormed) = [] := by
    refine List.filter_eq_nil_iff.mpr fun g hg => ?_
    simp [h.initialized g (Array.mem_toList_iff.mp hg)]
  have hbody : m.functions.toList.flatMap (functionDefects m) = [] := by
    refine List.flatMap_eq_nil_iff.mpr fun f hf => ?_
    cases hd : f.defined with
    | false => simp [functionDefects, hd]
    | true =>
      exact (h.bodies f (Array.mem_toList_iff.mp hf) hd).functionDefects_eq_nil
  dsimp only [defects]
  rw [hfun, hglob, hinit, hbody]
  rfl

theorem sound_empty (name : String) : Sound { name } :=
  ⟨List.nodup_nil, List.nodup_nil, fun _ h => absurd h List.not_mem_nil,
    fun g h => by simp at h, fun f h => by simp at h⟩

theorem within_addGlobal (m : Module) (g : Global) : m.Within (m.addGlobal g).2 :=
  ⟨by simp [addGlobal], Nat.le_refl _⟩

theorem within_declare (m : Module) (name : String) : m.Within (m.declare name).2 :=
  ⟨List.prefix_rfl, by simp [declare]⟩

theorem Sound.addGlobal {m : Module} (h : m.Sound) {g : Global} (hg : g.wellFormed = true)
    (hn : g.name ∉ m.globalNames) (hf : g.name ∉ m.functionNames) :
    (m.addGlobal g).2.Sound := by
  have hnames : (m.addGlobal g).2.globalNames = m.globalNames ++ [g.name] := by
    simp [globalNames, Module.addGlobal]
  refine ⟨h.functions, ?_, ?_, ?_, fun f hf' hd => (h.bodies f hf' hd).mono (within_addGlobal m g)⟩
  · rw [hnames]
    exact List.nodup_append.mpr ⟨h.globals, by simp, by
      intro x hx y hy heq
      subst heq
      exact hn (List.mem_singleton.mp hy ▸ hx)⟩
  · rw [hnames]
    intro x hx
    rcases List.mem_append.mp hx with hx | hx
    · exact h.disjoint x hx
    · rw [List.mem_singleton.mp hx]
      exact hf
  · intro x hx
    rcases Array.mem_push.mp hx with hx | rfl
    · exact h.initialized x hx
    · exact hg

theorem Sound.declare {m : Module} (h : m.Sound) {name : String} (hn : name ∉ m.globalNames)
    (hf : name ∉ m.functionNames) : (m.declare name).2.Sound := by
  have hnames : (m.declare name).2.functionNames = m.functionNames ++ [name] := by
    simp [functionNames, Module.declare]
  refine ⟨?_, h.globals, ?_, h.initialized, ?_⟩
  · rw [hnames]
    exact List.nodup_append.mpr ⟨h.functions, by simp, by
      intro x hx y hy heq
      subst heq
      exact hf (List.mem_singleton.mp hy ▸ hx)⟩
  · rw [hnames]
    intro x hx hx'
    rcases List.mem_append.mp hx' with hx' | hx'
    · exact h.disjoint x hx hx'
    · exact hn (List.mem_singleton.mp hx' ▸ hx)
  · intro f hf' hd
    rcases Array.mem_push.mp hf' with hf' | rfl
    · exact (h.bodies f hf' hd).mono (within_declare m name)
    · cases hd

theorem within_define (m : Module) (id : Nat) (f : Function) : m.Within (m.define id f) :=
  ⟨List.prefix_rfl, by simp [define]⟩

theorem functions_define_declare (m : Module) (name : String) (f : Function) :
    ((m.declare name).2.define m.functions.size f).functions = m.functions.push f := by
  apply Array.toList_inj.mp
  simp [define, declare]

theorem functionNames_define {m : Module} {id : Nat} {f g : Function}
    (hg : m.functions[id]? = some g) (hname : f.name = g.name) :
    (m.define id f).functionNames = m.functionNames := by
  unfold functionNames define
  refine List.ext_getElem? fun i => ?_
  simp only [List.getElem?_map, Array.getElem?_toList, Array.getElem?_setIfInBounds]
  split
  · next h =>
    subst h
    rw [if_pos (Array.getElem?_eq_some_iff.mp hg).1, hg]
    simp [hname]
  · rfl

theorem Sound.define {m : Module} (h : m.Sound) {id : Nat} {f g : Function}
    (hg : m.functions[id]? = some g) (hname : f.name = g.name) (hf : f.Sound m) :
    (m.define id f).Sound := by
  have hnames := functionNames_define hg hname
  refine ⟨hnames ▸ h.functions, h.globals, hnames ▸ h.disjoint, h.initialized, ?_⟩
  intro k hk hd
  rcases Array.mem_or_eq_of_mem_setIfInBounds hk with hk | rfl
  · exact (h.bodies k hk hd).mono (within_define m id f)
  · exact hf.mono (within_define m id _)

end Module

end C1Lang.IR
