import C1Lang.Build.FileTree
import C1Lang.Build.Run
import C1Lang.Proofs.Build.FileTree
import C1Lang.Proofs.FrontEnd
import C1Lang.Proofs.IR.Printing
import C1Lang.Proofs.Lower.Rollback

/-!
# What a build does

A build compiles a file and has effects on the files and the output: dumps, and the artifact. They
are listed here as a function of the settings and the text (`effects`). Apart from what it reports,
a build carries out these effects and tells whether there was a module (`file_alike`). So it does
what `compile` says as long as no effect fails, and how much it reports makes no difference
(`file_agrees`).
-/

namespace C1Lang

inductive Effect
  | directory (path : String)
  | file (path content : String)
  | print (text : String)
deriving DecidableEq, Repr

namespace Effect

def perform : Effect → StateM Workspace (Except FileError Unit)
  | directory path => Host.createDirs path
  | file path content => Host.writeText path content
  | print text => do
    Host.print text
    return .ok ()

def performAll : List Effect → StateM Workspace (Except FileError Unit)
  | [] => return .ok ()
  | e :: rest => do
    match ← e.perform with
    | .ok () => performAll rest
    | .error x => return .error x

end Effect

namespace BuildSettings

def dumpEffects (c : BuildSettings) (d : Dump) (content : String) : List Effect :=
  if c.dumps.contains d then
    match c.dumpDir with
    | none => [.print ("\n" ++ content ++ "\n")]
    | some dir => [.directory dir, .file (Path.join dir d.fileName) content]
  else []

def exported? (c : BuildSettings) (m : IR.Module) : Option (String × String) :=
  if c.checkOnly then none
  else
    match c.artifact with
    | .nothing => none
    | .assembly => m.text?.map ("ll", ·)
    | .data => some ("json", m.json.text)

def artifactPath (c : BuildSettings) (name extension : String) : String :=
  Path.join c.outputDir (name ++ "." ++ extension)

def artifactEffects (c : BuildSettings) (m : IR.Module) : List Effect :=
  match c.exported? m with
  | none => []
  | some (extension, content) =>
    [.directory c.outputDir, .file (c.artifactPath m.name extension) content]

end BuildSettings

def passedOn (path text : String) : List (Dump × String) :=
  let lexed := lex text
  if lexed.diagnostics.isEmpty then
    (.tokens, TokenTable.render (SourceFile.ofText path text) lexed.tokens) ::
      match (parse lexed.tokens).program? with
      | none => []
      | some program =>
        (.program, program.dump) ::
          match lower (moduleName path) program with
          | .error _ => []
          | .ok l => if l.valid then (l.module.text?.map (Dump.module, ·)).toList else []
  else []

namespace BuildSettings

def dumpsEffects (c : BuildSettings) (path text : String) : List Effect :=
  (passedOn path text).flatMap fun (d, content) => c.dumpEffects d content

def effects (c : BuildSettings) (path text : String) : List Effect :=
  c.dumpsEffects path text ++
    match compile path text c.verify with
    | .ok ⟨some m, _, _⟩ => c.artifactEffects m
    | _ => []

end BuildSettings

def Workspace.Alike (w w' : Workspace) : Prop := w.tree = w'.tree ∧ w.output = w'.output

/-- The step looks at the files and the output only. -/
def Steady {α : Type} (step : StateM Workspace α) : Prop :=
  ∀ w w', w.Alike w' → (step w).1 = (step w').1 ∧ (step w).2.Alike (step w').2

namespace Steady

variable {α β : Type}

theorem pure (a : α) : Steady (Pure.pure a : StateM Workspace α) := fun _ _ h => ⟨rfl, h⟩

theorem bind {step : StateM Workspace α} {next : α → StateM Workspace β} (hs : Steady step)
    (hn : ∀ a, Steady (next a)) : Steady (step >>= next) := by
  intro w w' h
  obtain ⟨hr, hw⟩ := hs w w' h
  have hnext := hn (step w).1 (step w).2 (step w').2 hw
  rw [show (step >>= next) w = next (step w).1 (step w).2 from rfl,
    show (step >>= next) w' = next (step w').1 (step w').2 from rfl, ← hr]
  exact hnext

theorem update (change : FileTree → Except FileError FileTree) :
    Steady (Workspace.update change) := by
  intro w w' h
  unfold Workspace.update
  rw [h.1]
  cases change w'.tree with
  | ok tree => exact ⟨rfl, rfl, h.2⟩
  | error x => exact ⟨rfl, h⟩

theorem isDirectory (path : String) :
    Steady (Host.isDirectory path : StateM Workspace Bool) :=
  fun _ _ h => ⟨congrArg (·.isDirectory path) h.1, h⟩

theorem ensureDir (path : String) :
    Steady (Host.ensureDir path : StateM Workspace (Except FileError Unit)) := by
  refine (update _).bind fun r => ?_
  cases r with
  | ok u => exact .pure _
  | error x =>
    refine (isDirectory path).bind fun b => ?_
    cases b <;> exact .pure _

theorem ensureDirs (fuel : Nat) (path : String) :
    Steady (Host.ensureDirs fuel path : StateM Workspace (Except FileError Unit)) := by
  induction fuel generalizing path with
  | zero => exact .pure _
  | succ fuel ih =>
    unfold Host.ensureDirs
    split
    · exact .pure _
    · refine (ensureDir path).bind fun r => ?_
      split
      · refine (ih _).bind fun r => ?_
        cases r with
        | ok u => exact ensureDir path
        | error x => exact .pure _
      · exact .pure _

theorem perform (e : Effect) : Steady e.perform := by
  cases e with
  | directory path => exact ensureDirs _ path
  | file path content => exact update _
  | print text => exact fun w w' h => ⟨rfl, h.1, by
      show w.output ++ text = w'.output ++ text
      rw [h.2]⟩

end Steady

namespace Build

def Alike {α : Type} (b b' : Build (StateM Workspace) α) : Prop :=
  ∀ w w', w.Alike w' → (b.run w).1 = (b'.run w').1 ∧ (b.run w).2.Alike (b'.run w').2

def Silent (b : Build (StateM Workspace) Unit) : Prop :=
  ∀ w, (b.run w).1 = .ok () ∧ (b.run w).2.Alike w

def carryOut (es : List Effect) : Build (StateM Workspace) Unit := do
  match ← ExceptT.lift (Effect.performAll es) with
  | .ok () => return ()
  | .error _ => throw .reported

section Rules

variable {α β : Type} {b b' : Build (StateM Workspace) α}

theorem run_bind (next : α → Build (StateM Workspace) β) (w : Workspace) :
    (b >>= next).run w = match (b.run w).1 with
      | .ok a => (next a).run (b.run w).2
      | .error h => (.error h, (b.run w).2) := by
  show (ExceptT.bindCont next (b.run w).1).run (b.run w).2 = _
  cases (b.run w).1 <;> rfl

namespace Alike

theorem pure (a : α) : Alike (Pure.pure a) (Pure.pure a) := fun _ _ h => ⟨rfl, h⟩

theorem throw (h : Halt) :
    Alike (MonadExcept.throw h : Build (StateM Workspace) α) (MonadExcept.throw h) :=
  fun _ _ hw => ⟨rfl, hw⟩

theorem bind {next next' : α → Build (StateM Workspace) β} (hb : Alike b b')
    (hn : ∀ a, Alike (next a) (next' a)) : Alike (b >>= next) (b' >>= next') := by
  intro w w' hw
  obtain ⟨hr, hs⟩ := hb w w' hw
  rw [run_bind, run_bind, ← hr]
  cases (b.run w).1 with
  | ok a => exact hn a _ _ hs
  | error h => exact ⟨rfl, hs⟩

theorem silent {log : Build (StateM Workspace) Unit} (hl : Silent log) (h : Alike b b') :
    Alike (log >>= fun _ => b) b' := by
  intro w w' hw
  obtain ⟨hr, hs⟩ := hl w
  rw [run_bind, hr]
  exact h _ _ ⟨hs.1.trans hw.1, hs.2.trans hw.2⟩

theorem stop (h : Halt) (next : α → Build (StateM Workspace) β) :
    Alike (MonadExcept.throw h >>= next) (MonadExcept.throw h) := fun _ _ hw => ⟨rfl, hw⟩

theorem symm (h : Alike b b') : Alike b' b := by
  intro w w' hw
  obtain ⟨hr, hs⟩ := h w' w ⟨hw.1.symm, hw.2.symm⟩
  exact ⟨hr.symm, hs.1.symm, hs.2.symm⟩

theorem trans {b'' : Build (StateM Workspace) α} (h : Alike b b') (k : Alike b' b'') :
    Alike b b'' := by
  intro w w' hw
  obtain ⟨hr, hs⟩ := h w w ⟨rfl, rfl⟩
  obtain ⟨kr, ks⟩ := k w w' hw
  exact ⟨hr.trans kr, hs.1.trans ks.1, hs.2.trans ks.2⟩

end Alike

namespace Silent

variable {l l' : Build (StateM Workspace) Unit}

theorem pure : Silent (Pure.pure ()) := fun _ => ⟨rfl, rfl, rfl⟩

theorem seq (h : Silent l) (h' : Silent l') : Silent (l >>= fun _ => l') := by
  intro w
  obtain ⟨hr, hs⟩ := h w
  obtain ⟨hr', hs'⟩ := h' (l.run w).2
  rw [run_bind, hr]
  exact ⟨hr', hs'.1.trans hs.1, hs'.2.trans hs.2⟩

theorem ite {c : Prop} [Decidable c] (h : Silent l) : Silent (if c then l else Pure.pure ()) := by
  split
  · exact h
  · exact .pure

theorem forM (xs : List β) {f : β → Build (StateM Workspace) Unit} (h : ∀ x, Silent (f x)) :
    Silent (xs.forM f) := by
  induction xs with
  | nil => exact .pure
  | cons x rest ih => exact (h x).seq ih

theorem report (text : String) : Silent (Build.report text) := fun _ => ⟨rfl, rfl, rfl⟩

theorem display (s : Session) (file : SourceFile) (ds : List Diagnostic) :
    Silent (Build.display s file ds) := fun _ => ⟨rfl, rfl, rfl⟩

theorem phase (s : Session) (message : String) : Silent (Build.phase s message) := .ite (.report _)

theorem done (s : Session) (message : String) : Silent (Build.done s message) := .ite (.report _)

theorem warn (s : Session) (message : String) : Silent (Build.warn s message) := .ite (.report _)

theorem trace (s : Session) (c : Component) (message : String) :
    Silent (Build.trace s c message) := .ite (.report _)

theorem info (s : Session) (message : String) : Silent (Build.info s message) := .ite (.report _)

theorem detail (s : Session) (message : String) : Silent (Build.detail s message) :=
  .ite (.report _)

theorem remark (s : Session) (message : String) : Silent (Build.remark s message) :=
  .ite (.report _)

end Silent

theorem Alike.stops {h : Halt} (hb : Alike b (MonadExcept.throw h))
    (next : α → Build (StateM Workspace) β) : Alike (b >>= next) (MonadExcept.throw h) := by
  intro w w' hw
  obtain ⟨hr, hs⟩ := hb w w' hw
  rw [run_bind, hr]
  exact ⟨rfl, hs⟩

theorem Alike.after {es : List Effect} {a : α} {next : α → Build (StateM Workspace) β}
    {rest : Build (StateM Workspace) β} (hb : Alike b (carryOut es >>= fun _ => Pure.pure a))
    (hn : Alike (next a) rest) : Alike (b >>= next) (carryOut es >>= fun _ => rest) := by
  intro w w' hw
  obtain ⟨hr, hs⟩ := hb w w' hw
  rw [run_bind] at hr hs
  rw [run_bind, run_bind]
  cases hcarry : ((carryOut es).run w').1 with
  | ok u =>
    rw [hcarry] at hr hs
    rw [hr]
    exact hn _ _ hs
  | error x =>
    rw [hcarry] at hr hs
    rw [hr]
    exact ⟨rfl, hs⟩

theorem Silent.alike {l : Build (StateM Workspace) Unit} (h : Silent l) :
    Alike l (Pure.pure ()) := by
  intro w w' hw
  obtain ⟨hr, hs⟩ := h w
  exact ⟨hr, hs.1.trans hw.1, hs.2.trans hw.2⟩

theorem Alike.before_silent {b b' l : Build (StateM Workspace) Unit} (hb : Alike b b')
    (hl : Silent l) : Alike (b >>= fun _ => l) b' :=
  bind_pure b' ▸ hb.bind fun _ => hl.alike

theorem performAll_cons (e : Effect) (rest : List Effect) (w : Workspace) :
    Effect.performAll (e :: rest) w = match (e.perform w).1 with
      | .ok () => Effect.performAll rest (e.perform w).2
      | .error x => (.error x, (e.perform w).2) := by
  show (match (e.perform w).1 with
    | .ok () => Effect.performAll rest
    | .error x => Pure.pure (.error x) : StateM Workspace _) (e.perform w).2 = _
  cases (e.perform w).1 <;> rfl

theorem performAll_append (es fs : List Effect) (w : Workspace) :
    Effect.performAll (es ++ fs) w = match (Effect.performAll es w).1 with
      | .ok () => Effect.performAll fs (Effect.performAll es w).2
      | .error x => (.error x, (Effect.performAll es w).2) := by
  induction es generalizing w with
  | nil => rfl
  | cons e rest ih =>
    rw [List.cons_append, performAll_cons, performAll_cons]
    cases (e.perform w).1 with
    | ok u => exact ih _
    | error x => rfl

theorem performAll_singleton (e : Effect) : Effect.performAll [e] = e.perform := by
  funext w
  rw [performAll_cons]
  have hpair : e.perform w = ((e.perform w).1, (e.perform w).2) := rfl
  rw [hpair]
  cases (e.perform w).1 <;> rfl

theorem carryOut_run (es : List Effect) (w : Workspace) :
    (carryOut es).run w = match (Effect.performAll es w).1 with
      | .ok () => (.ok (), (Effect.performAll es w).2)
      | .error _ => (.error .reported, (Effect.performAll es w).2) := by
  unfold carryOut
  rw [run_bind]
  show (match (Effect.performAll es w).1 with
    | .ok () => Pure.pure ()
    | .error _ => MonadExcept.throw Halt.reported : Build (StateM Workspace) Unit).run
      (Effect.performAll es w).2 = _
  cases (Effect.performAll es w).1 <;> rfl

theorem carryOut_append (es fs : List Effect) :
    carryOut (es ++ fs) = carryOut es >>= fun _ => carryOut fs := by
  funext w
  show (carryOut (es ++ fs)).run w = (carryOut es >>= fun _ => carryOut fs).run w
  rw [run_bind, carryOut_run, carryOut_run, performAll_append]
  cases (Effect.performAll es w).1 with
  | ok u => exact (carryOut_run fs _).symm
  | error x => rfl

theorem Alike.lift {step : StateM Workspace α} (h : Steady step) :
    Alike (ExceptT.lift step) (ExceptT.lift step) := by
  intro w w' hw
  obtain ⟨hr, hs⟩ := h w w' hw
  exact ⟨congrArg Except.ok hr, hs⟩

theorem fail_alike (color : Bool) (message : String) :
    Alike (fail color message : Build (StateM Workspace) α) (throw .reported) :=
  .silent (.report _) (.throw _)

theorem orFail_alike (color : Bool) (what path : String) (e : Effect) :
    Alike (orFail color what path e.perform) (carryOut [e]) := by
  unfold orFail carryOut
  rw [performAll_singleton]
  refine (Alike.lift (.perform e)).bind fun r => ?_
  cases r with
  | ok u => exact .pure ()
  | error x => exact fail_alike color _

end Rules

section Stages

variable (s : Session) (file : SourceFile)

theorem print_alike (text : String) :
    Alike (print text) (carryOut [.print text]) := by
  intro w w' hw
  rw [carryOut_run, performAll_singleton]
  exact ⟨rfl, hw.1, congrArg (· ++ text) hw.2⟩

theorem dump_alike (d : Dump) (content : String) :
    Alike (dump s d content) (carryOut (s.settings.dumpEffects d content)) := by
  unfold dump BuildSettings.dumpEffects
  split
  · cases s.settings.dumpDir with
    | none => exact print_alike _
    | some dir =>
      have hsplit := carryOut_append [.directory dir] [.file (Path.join dir d.fileName) content]
      exact hsplit ▸ (orFail_alike s.color _ dir (.directory dir)).bind fun _ =>
        orFail_alike s.color _ _ (.file _ _)
  · exact .pure ()

theorem tokens_alike (h : (lex file.text).diagnostics = []) :
    Alike (tokens s file) (do
      carryOut (s.settings.dumpEffects .tokens (TokenTable.render file (lex file.text).tokens))
      return (lex file.text).tokens) := by
  unfold tokens
  refine .silent (.phase s _) ?_
  simp only [h, List.isEmpty_nil, if_true]
  exact (dump_alike s _ _).bind fun _ => .silent (.trace s _ _) (.pure _)

theorem tokens_stop (h : (lex file.text).diagnostics ≠ []) :
    Alike (tokens s file) (throw .reported) := by
  have he : (lex file.text).diagnostics.isEmpty = false := by simpa using h
  unfold tokens
  refine .silent (.phase s _) ?_
  simp only [he]
  exact .silent (.display s _ _) (.stop _ _)

theorem program_alike {ts : List Token} {p : Program} (h : (parse ts).program? = some p) :
    Alike (program s file ts) (do
      carryOut (s.settings.dumpEffects .program p.dump)
      return p) := by
  unfold program
  refine .silent (.phase s _) (.silent (.detail s _) ?_)
  simp only [h]
  exact (dump_alike s _ _).bind fun _ => .silent (.trace s _ _) (.pure _)

theorem program_stop {ts : List Token} (h : (parse ts).program? = none) :
    Alike (program s file ts) (throw .reported) := by
  unfold program
  refine .silent (.phase s _) (.silent (.detail s _) ?_)
  simp only [h]
  exact .silent (.display s _ _) (.throw _)

theorem module_alike {p : Program} {l : Lowered} {text : String}
    (hl : lower (moduleName file.path) p = .ok l) (hv : l.valid = true)
    (ht : l.module.text? = some text) :
    Alike (module s file p) (do
      carryOut (s.settings.dumpEffects .module text)
      return l.module) := by
  have hassembly : (assembly l.module : Build (StateM Workspace) String) = pure text := by
    simp only [assembly, ht]
  unfold module
  refine .silent (.phase s _) ?_
  simp only [hl, hv, hassembly, if_true, pure_bind]
  refine .silent (.trace s _ _) ?_
  have hremarks := fun (f : IR.Function) => Silent.remark s ("function '" ++ f.name ++ "': " ++
    toString f.blocks.size ++ " blocks, " ++ toString f.locals.size ++ " locals")
  have hrest := Alike.silent (Silent.forM l.module.functions.toList hremarks)
    ((dump_alike s .module text).bind fun _ => .pure l.module)
  split
  · exact hrest
  · exact .silent (.display s _ _) hrest

theorem module_stop {p : Program} {l : Lowered} (hl : lower (moduleName file.path) p = .ok l)
    (hv : l.valid = false) : Alike (module s file p) (throw .reported) := by
  unfold module
  refine .silent (.phase s _) ?_
  simp only [hl, hv]
  refine .silent (.trace s _ _) ?_
  split
  · exact .stop _ _
  · exact .silent (.display s _ _) (.stop _ _)

theorem verify_silent {m : IR.Module} (h : m.defects = []) : Silent (verify s m) := by
  unfold verify
  split
  · refine (Silent.phase s _).seq ?_
    simp only [h, List.isEmpty_nil, if_true]
    exact .pure
  · exact .warn s _

theorem writeArtifact_alike (name extension content : String) :
    Alike (do
        let path ← writeArtifact s name extension content
        done s ("Wrote " ++ path))
      (carryOut [.directory s.settings.outputDir,
        .file (s.settings.artifactPath name extension) content]) := by
  have hsplit := carryOut_append [.directory s.settings.outputDir]
    [.file (s.settings.artifactPath name extension) content]
  refine hsplit ▸ ?_
  unfold writeArtifact
  simp only [bind_assoc, pure_bind]
  refine (orFail_alike s.color _ _ (.directory _)).bind fun _ => ?_
  exact (orFail_alike s.color _ _ (.file _ _)).before_silent (.done s _)

theorem emit_alike {m : IR.Module} {text : String} (ht : m.text? = some text) :
    Alike (emit s file m) (carryOut (s.settings.artifactEffects m)) := by
  have hassembly : (assembly m : Build (StateM Workspace) String) = pure text := by
    simp only [assembly, ht]
  unfold emit BuildSettings.artifactEffects BuildSettings.exported?
  split
  · exact (Silent.done s _).alike
  · cases s.settings.artifact with
    | nothing => exact (Silent.done s _).alike
    | assembly =>
      simp only [ht, hassembly, pure_bind, Option.map_some]
      exact writeArtifact_alike s m.name "ll" text
    | data => exact writeArtifact_alike s m.name "json" m.json.text

/-- The build of a file without what it reports. -/
def outline (c : BuildSettings) (path : String) : Build (StateM Workspace) Unit := do
  match ← ExceptT.lift (Host.readText path) with
  | .error _ => throw .reported
  | .ok text =>
    carryOut (c.effects path text)
    match compile path text c.verify with
    | .ok ⟨some _, _, _⟩ => return ()
    | _ => throw .reported

/-- How far a text gets: what it is compiled to, and the effects of building it. -/
inductive Reaches (c : BuildSettings) (path text : String) : Prop
  | lexing : (lex text).diagnostics ≠ [] →
      compile path text c.verify = .ok ⟨none, (lex text).diagnostics, []⟩ →
      c.effects path text = [] → Reaches c path text
  | parsing : (lex text).diagnostics = [] → (parse (lex text).tokens).program? = none →
      compile path text c.verify = .ok ⟨none, (parse (lex text).tokens).diagnostics, []⟩ →
      c.effects path text = c.dumpEffects .tokens
        (TokenTable.render (SourceFile.ofText path text) (lex text).tokens) → Reaches c path text
  | lowering (p : Program) (l : Lowered) : (lex text).diagnostics = [] →
      (parse (lex text).tokens).program? = some p → lower (moduleName path) p = .ok l →
      l.valid = false → compile path text c.verify = .ok ⟨none, l.diagnostics, []⟩ →
      c.effects path text = c.dumpEffects .tokens
        (TokenTable.render (SourceFile.ofText path text) (lex text).tokens) ++
        c.dumpEffects .program p.dump → Reaches c path text
  | verifying (p : Program) (l : Lowered) (content : String) : (lex text).diagnostics = [] →
      (parse (lex text).tokens).program? = some p → lower (moduleName path) p = .ok l →
      l.valid = true → l.module.defects = [] → l.module.text? = some content →
      compile path text c.verify = .ok ⟨some l.module, l.diagnostics, []⟩ →
      c.effects path text = c.dumpEffects .tokens
        (TokenTable.render (SourceFile.ofText path text) (lex text).tokens) ++
        (c.dumpEffects .program p.dump ++ (c.dumpEffects .module content ++
          c.artifactEffects l.module)) → Reaches c path text

theorem reaches (c : BuildSettings) (path text : String) : Reaches c path text := by
  by_cases hlex : (lex text).diagnostics = []
  · cases hparse : (parse (lex text).tokens).program? with
    | none =>
      have hcompile : compile path text c.verify =
          .ok ⟨none, (parse (lex text).tokens).diagnostics, []⟩ := by
        simp [compile, Progress.ofText, hlex, hparse, Except.map]
      refine .parsing hlex hparse hcompile ?_
      simp [BuildSettings.effects, BuildSettings.dumpsEffects, passedOn, hlex, hparse, hcompile]
    | some p =>
      obtain ⟨l, hl, hsound, -⟩ := lower_judged (moduleName path) p
      have hcompile : compile path text c.verify =
          .ok ⟨if l.valid then some l.module else none, l.diagnostics, []⟩ := by
        rw [← Lowered.compiled_eq hsound.defects_eq_nil c.verify]
        simp [compile, Progress.ofText, hlex, hparse, hl, Except.map]
      cases hv : l.valid with
      | false =>
        simp only [hv] at hcompile
        refine .lowering p l hlex hparse hl hv hcompile ?_
        simp [BuildSettings.effects, BuildSettings.dumpsEffects, passedOn, hlex, hparse, hl, hv,
          hcompile]
      | true =>
        obtain ⟨content, ht⟩ := Option.isSome_iff_exists.mp hsound.text?_isSome
        simp only [hv, if_true] at hcompile
        refine .verifying p l content hlex hparse hl hv hsound.defects_eq_nil ht hcompile ?_
        simp [BuildSettings.effects, BuildSettings.dumpsEffects, passedOn, hlex, hparse, hl, hv,
          ht, hcompile]
  · refine .lexing hlex ?_ ?_
    · simp [compile, Progress.ofText, hlex, Except.map]
    · simp [BuildSettings.effects, BuildSettings.dumpsEffects, passedOn, compile, Progress.ofText,
        hlex, Except.map]

theorem carryOut_nil : carryOut [] = pure () := rfl

theorem stages_alike (path text : String) :
    Alike
      (do
        let ts ← tokens s (SourceFile.ofText path text)
        let p ← program s (SourceFile.ofText path text) ts
        let m ← module s (SourceFile.ofText path text) p
        verify s m
        info s ("module '" ++ m.name ++ "': " ++ toString m.functions.size ++ " functions, " ++
          toString m.globals.size ++ " globals")
        emit s (SourceFile.ofText path text) m)
      (do
        carryOut (s.settings.effects path text)
        match compile path text s.settings.verify with
        | .ok ⟨some _, _, _⟩ => return ()
        | _ => throw .reported) := by
  have htokens := tokens_alike s (SourceFile.ofText path text)
  obtain ⟨hlex, hc, he⟩ | ⟨hlex, hparse, hc, he⟩ | ⟨p, l, hlex, hparse, hl, hv, hc, he⟩ |
    ⟨p, l, content, hlex, hparse, hl, hv, hd, ht, hc, he⟩ := reaches s.settings path text
  · rw [hc, he, carryOut_nil, pure_bind]
    exact (tokens_stop s (SourceFile.ofText path text) hlex).stops _
  · rw [hc, he]
    refine (htokens hlex).after ?_
    exact (program_stop s _ hparse).stops _
  · rw [hc, he, carryOut_append, bind_assoc]
    refine (htokens hlex).after ((program_alike s _ hparse).after ?_)
    exact (module_stop s (SourceFile.ofText path text) hl hv).stops _
  · rw [hc, he, carryOut_append, carryOut_append, carryOut_append, bind_assoc, bind_assoc,
      bind_assoc]
    refine (htokens hlex).after ((program_alike s _ hparse).after ?_)
    refine (module_alike s (SourceFile.ofText path text) hl hv ht).after ?_
    refine .silent (verify_silent s hd) (.silent (.info s _) ?_)
    have hemit := emit_alike s (SourceFile.ofText path text) ht
    rw [← bind_pure (carryOut _)] at hemit
    exact hemit

theorem readText_steady (path : String) :
    Steady (Host.readText path : StateM Workspace (Except FileError String)) :=
  fun _ _ h => ⟨congrArg (·.readText path) h.1, h⟩

theorem file_alike (path : String) : Alike (Build.file s path) (outline s.settings path) := by
  unfold Build.file orFail outline
  rw [bind_assoc]
  refine (Alike.lift (readText_steady path)).bind fun r => ?_
  cases r with
  | ok text => exact stages_alike s path text
  | error x => exact (fail_alike s.color _).stops _

theorem outline_run {c : BuildSettings} {path text : String} {w w' : Workspace} {r : Compiled}
    (hread : w.tree.readText path = .ok text)
    (hdone : Effect.performAll (c.effects path text) w = (.ok (), w'))
    (hr : compile path text c.verify = .ok r) :
    (outline c path).run w =
      (if r.module?.isSome then .ok () else .error .reported, w') := by
  have hlift : (ExceptT.lift (Host.readText path) : Build (StateM Workspace) _).run w =
      (.ok (.ok text), w) := by
    rw [← hread]
    rfl
  obtain ⟨m, ds, defects⟩ := r
  unfold outline
  rw [run_bind, hlift]
  show (carryOut (c.effects path text) >>= _).run w = _
  rw [run_bind, carryOut_run, hdone]
  dsimp only
  rw [hr]
  cases m <;> rfl

end Stages

end Build

/-- An effect of a dump: its content is printed, or put into a file of the dump directory. -/
inductive Effect.Dumps (c : BuildSettings) : Effect → Prop
  | print (text : String) : c.dumpDir = none → Dumps c (.print text)
  | directory {dir : String} : c.dumpDir = some dir → Dumps c (.directory dir)
  | file {dir : String} (d : Dump) (content : String) : d ∈ c.dumps → c.dumpDir = some dir →
      Dumps c (.file (Path.join dir d.fileName) content)

theorem BuildSettings.dumps_of_mem {c : BuildSettings} {path text : String} {e : Effect}
    (h : e ∈ c.dumpsEffects path text) : e.Dumps c := by
  obtain ⟨⟨d, content⟩, -, he⟩ := List.mem_flatMap.mp h
  by_cases hd : c.dumps.contains d
  · cases hdir : c.dumpDir with
    | none =>
      simp only [BuildSettings.dumpEffects, if_pos hd, hdir, List.mem_singleton] at he
      exact he ▸ .print _ hdir
    | some dir =>
      simp only [BuildSettings.dumpEffects, if_pos hd, hdir, List.mem_cons, List.not_mem_nil,
        or_false] at he
      rcases he with rfl | rfl
      · exact .directory hdir
      · exact .file d content (by simpa using hd) hdir
  · simp only [BuildSettings.dumpEffects, if_neg hd, List.not_mem_nil] at he

inductive Exported (m : IR.Module) : Artifact → String → String → Prop
  | assembly {content : String} : m.text? = some content → Exported m .assembly "ll" content
  | data : Exported m .data "json" m.json.text

theorem BuildSettings.exported?_eq {c : BuildSettings} {m : IR.Module}
    (ht : m.text?.isSome = true) (hc : c.checkOnly = false) (ha : c.artifact ≠ .nothing) :
    ∃ extension content, Exported m c.artifact extension content ∧
      c.exported? m = some (extension, content) := by
  obtain ⟨content, ht⟩ := Option.isSome_iff_exists.mp ht
  cases h : c.artifact with
  | nothing => exact absurd h ha
  | assembly => exact ⟨_, _, .assembly ht, by simp [exported?, hc, h, ht]⟩
  | data => exact ⟨_, _, .data, by simp [exported?, hc, h]⟩

theorem BuildSettings.exported?_none {c : BuildSettings} (m : IR.Module)
    (h : c.checkOnly = true ∨ c.artifact = .nothing) : c.exported? m = none := by
  cases hc : c.checkOnly with
  | true => simp [exported?, hc]
  | false =>
    obtain ha := h.resolve_left (by simp [hc])
    simp [exported?, hc, ha]

theorem Effect.performAll_snoc {es : List Effect} {e : Effect} {w w' : Workspace}
    (h : Effect.performAll (es ++ [e]) w = (.ok (), w')) : ∃ w₁, e.perform w₁ = (.ok (), w') := by
  rw [Build.performAll_append, Build.performAll_singleton] at h
  split at h
  · exact ⟨_, h⟩
  · cases h

theorem Effect.readText_last {es : List Effect} {path content : String} {w w' : Workspace}
    (h : Effect.performAll (es ++ [.file path content]) w = (.ok (), w')) :
    w'.tree.readText path = .ok content := by
  obtain ⟨w₁, hw⟩ := performAll_snoc h
  change Workspace.update (·.writeText path content) w₁ = _ at hw
  unfold Workspace.update at hw
  split at hw
  · next tree hwrite =>
    cases hw
    exact FileTree.readText_writeText hwrite
  · cases hw

def buildFile (s : Session) (path : String) (w : Workspace) : Except Halt Unit × Workspace :=
  (Build.file s path : Build (StateM Workspace) Unit).run w

theorem buildFile_eq {s : Session} {path text : String} {w w' : Workspace} {c : Compiled}
    (hread : w.tree.readText path = .ok text)
    (hdone : Effect.performAll (s.settings.effects path text) w = (.ok (), w'))
    (hc : compile path text s.settings.verify = .ok c) :
    ∃ messages, buildFile s path w =
      (if c.module?.isSome then .ok () else .error .reported, { w' with messages }) := by
  obtain ⟨hr, htree, houtput⟩ := Build.file_alike s path w w ⟨rfl, rfl⟩
  rw [Build.outline_run hread hdone hc] at hr htree houtput
  refine ⟨(buildFile s path w).2.messages, Prod.ext hr ?_⟩
  show (⟨_, _, _⟩ : Workspace) = _
  rw [← htree, ← houtput]
  rfl

theorem compile_named {path text : String} {verify : Bool} {c : Compiled} {m : IR.Module}
    (hc : compile path text verify = .ok c) (hm : c.module? = some m) :
    m.name = moduleName path ∧ m.text?.isSome = true := by
  have hnone : ∀ {ds}, compile path text verify = .ok ⟨none, ds, []⟩ → False := by
    intro ds h
    rw [hc] at h
    cases h
    cases hm
  obtain ⟨-, h, -⟩ | ⟨-, -, h, -⟩ | ⟨-, l, -, -, -, -, h, -⟩ |
      ⟨_, l, _, -, -, hl, -, -, ht, h, -⟩ := Build.reaches { verify } path text
  · exact (hnone h).elim
  · exact (hnone h).elim
  · exact (hnone h).elim
  · rw [hc] at h
    cases h
    cases hm
    exact ⟨lower_name hl, by rw [ht]; rfl⟩

/-- As long as no effect fails, a build ends well exactly when compiling the text gives a module.
Besides dumps it then writes one file, which holds that module in the form that was asked for, or
nothing when no file was asked for or there is no module. How much is reported, and in which
colours, changes neither the result nor the files nor the output. -/
theorem buildFile_agrees (s : Session) (path : String) :
    (∀ (text : String) (w w' : Workspace), w.tree.readText path = .ok text →
      Effect.performAll (s.settings.effects path text) w = (.ok (), w') →
      ∃ c messages, compile path text s.settings.verify = .ok c ∧
        buildFile s path w =
          (if c.module?.isSome then .ok () else .error .reported, { w' with messages }) ∧
        (∀ e ∈ s.settings.dumpsEffects path text, e.Dumps s.settings) ∧
        (c.module? = none ∨ s.settings.checkOnly = true ∨ s.settings.artifact = .nothing →
          s.settings.effects path text = s.settings.dumpsEffects path text) ∧
        ∀ m, c.module? = some m → s.settings.checkOnly = false →
          s.settings.artifact ≠ .nothing →
          ∃ extension content, Exported m s.settings.artifact extension content ∧
            s.settings.effects path text = s.settings.dumpsEffects path text ++
              [.directory s.settings.outputDir,
                .file (s.settings.artifactPath (moduleName path) extension) content] ∧
            w'.tree.readText (s.settings.artifactPath (moduleName path) extension) =
              .ok content) ∧
    ∀ s' : Session, s'.settings = s.settings → ∀ w : Workspace,
      (buildFile s' path w).1 = (buildFile s path w).1 ∧
      (buildFile s' path w).2.tree = (buildFile s path w).2.tree ∧
      (buildFile s' path w).2.output = (buildFile s path w).2.output := by
  refine ⟨fun text w w' hread hdone => ?_, fun s' hs w => ?_⟩
  · obtain ⟨c, hc⟩ : ∃ c, compile path text s.settings.verify = .ok c := compile_total _ _ _
    obtain ⟨messages, hrun⟩ := buildFile_eq hread hdone hc
    refine ⟨c, messages, hc, hrun, fun e he => BuildSettings.dumps_of_mem he, fun h => ?_,
      fun m hm hcheck hsome => ?_⟩
    · obtain ⟨module?, ds, defects⟩ := c
      cases module? with
      | none => simp [BuildSettings.effects, hc]
      | some m =>
        have hm := s.settings.exported?_none m (h.resolve_left (by simp))
        simp [BuildSettings.effects, hc, BuildSettings.artifactEffects, hm]
    · obtain ⟨hname, ht⟩ := compile_named hc hm
      obtain ⟨extension, content, hexported, hwritten⟩ :=
        BuildSettings.exported?_eq ht hcheck hsome
      have heffects : s.settings.effects path text = s.settings.dumpsEffects path text ++
          [.directory s.settings.outputDir,
            .file (s.settings.artifactPath (moduleName path) extension) content] := by
        obtain ⟨module?, ds, defects⟩ := c
        cases hm
        simp [BuildSettings.effects, hc, BuildSettings.artifactEffects, hwritten, hname]
      refine ⟨extension, content, hexported, heffects, ?_⟩
      rw [heffects, List.append_cons] at hdone
      exact Effect.readText_last hdone
  · have h := Build.file_alike s path
    have h' := Build.file_alike s' path
    rw [hs] at h'
    exact h'.trans h.symm w w ⟨rfl, rfl⟩

section Sample

def sample : Workspace := { tree := { entries := [(["a"], .file (.text "int n;"))] } }

def besides : BuildSettings := { outputDir := "" }

theorem sample_names : Path.pieces "a" = ["a"] ∧ Path.pieces "a.ll" = ["a.ll"] := by
  constructor
  · unfold Path.pieces String.splitOn
    rw [if_neg (by decide), String.splitOnAux, if_neg (by decide), if_neg (by decide)]
    rw [String.splitOnAux, if_pos (by decide)]
    decide +kernel
  · unfold Path.pieces String.splitOn
    rw [if_neg (by decide)]
    iterate 4 rw [String.splitOnAux, if_neg (by decide), if_neg (by decide)]
    rw [String.splitOnAux, if_pos (by decide)]
    decide +kernel

theorem sample_pieces :
    FileTree.pieces "a" = .ok ["a"] ∧ FileTree.pieces "a.ll" = .ok ["a.ll"] := by
  constructor
  · simp [FileTree.pieces, sample_names.1, FileTree.maxPath]
    decide
  · simp [FileTree.pieces, sample_names.2, FileTree.maxPath]
    decide

theorem sample_path : besides.artifactPath (moduleName "a") "ll" = "a.ll" := by
  have hname : moduleName "a" = "a" := by
    unfold moduleName Path.fileStem? Path.fileName? Path.components
    rw [sample_names.1]
    decide +kernel
  rw [hname]
  decide +kernel

theorem sample_read : sample.tree.readText "a" = .ok "int n;" := by
  have horigin : FileTree.origin "a" = [] := by decide +kernel
  unfold FileTree.readText FileTree.find
  rw [sample_pieces.1, horigin]
  rfl

theorem sample_write (content : String) :
    ∃ w, Effect.performAll [.directory "", .file "a.ll" content] sample = (.ok (), w) := by
  have horigin : FileTree.origin "a.ll" = [] := by decide +kernel
  have hwrite : sample.tree.writeText "a.ll" content =
      .ok (sample.tree.insert ["a.ll"] (.file (.text content))) := by
    unfold FileTree.writeText
    rw [sample_pieces.2, horigin]
    rfl
  refine ⟨{ sample with tree := sample.tree.insert ["a.ll"] (.file (.text content)) }, ?_⟩
  rw [Build.performAll_cons, show Effect.perform (.directory "") sample = (.ok (), sample) from rfl]
  dsimp only
  rw [Build.performAll_singleton]
  show Workspace.update (·.writeText "a.ll" content) sample = _
  simp only [Workspace.update, hwrite]

theorem sample_effects :
    ∃ c content, compile "a" "int n;" true = .ok c ∧ c.module?.isSome = true ∧
      besides.effects "a" "int n;" = [.directory "", .file "a.ll" content] := by
  have hsome : (compile "a" "int n;" true).toOption.any (·.module?.isSome) = true := by
    decide +kernel
  obtain ⟨c, hc⟩ := compile_total "a" "int n;" true
  rw [hc] at hsome
  obtain ⟨module?, ds, defects⟩ := c
  cases module? with
  | none => cases hsome
  | some m =>
    obtain ⟨hname, ht⟩ := compile_named hc rfl
    obtain ⟨content, ht⟩ := Option.isSome_iff_exists.mp ht
    have hexported : besides.exported? m = some ("ll", content) := by
      simp [BuildSettings.exported?, besides, ht]
    have hdumps : besides.dumpsEffects "a" "int n;" = [] := by
      simp [BuildSettings.dumpsEffects, BuildSettings.dumpEffects, besides]
    have hverify : compile "a" "int n;" besides.verify = .ok ⟨some m, ds, defects⟩ := hc
    refine ⟨_, content, hc, rfl, ?_⟩
    simp [BuildSettings.effects, hverify, hdumps, BuildSettings.artifactEffects, hexported, hname,
      sample_path]
    rfl

theorem sample_built :
    ∃ content, (buildFile { settings := besides } "a" sample).1 = .ok () ∧
      (buildFile { settings := besides } "a" sample).2.tree.readText "a.ll" = .ok content ∧
      (buildFile { settings := besides, log := { quiet := true } } "a" sample).2.tree =
        (buildFile { settings := besides } "a" sample).2.tree := by
  obtain ⟨hbuild, hlog⟩ := buildFile_agrees { settings := besides } "a"
  obtain ⟨c, content, hc, hsome, heffects⟩ := sample_effects
  obtain ⟨w, hw⟩ := sample_write content
  rw [← heffects] at hw
  obtain ⟨c', messages, hc', hrun, -, -, hartifact⟩ := hbuild _ sample w sample_read hw
  rw [show besides.verify = true from rfl, hc] at hc'
  cases hc'
  obtain ⟨m, hm⟩ := Option.isSome_iff_exists.mp hsome
  obtain ⟨extension, content, hexported, -, hread⟩ := hartifact m hm rfl (by decide)
  cases hexported
  refine ⟨content, ?_, ?_, (hlog { settings := besides, log := { quiet := true } } rfl sample).2.1⟩
  · rw [hrun, hsome]
    rfl
  · rw [hrun, ← sample_path]
    exact hread

end Sample

end C1Lang
