import LowPrecision.Proofs.Pipeline.Interface

namespace LowPrecision

structure Firing where
  rule : Rule
  node : NodeId
  deriving DecidableEq

abbrev Recording (α ε : Type) := ExceptT ε (StateT (Session α × List Firing) Checked)

namespace Recording

variable {α ε β : Type}

def silently (x : ExceptT ε (StateT (Session α) Checked) β) : Recording α ε β := ExceptT.mk do
  let (s, log) ← get
  let (answer, s) ← (exec x s : Checked _)
  set (s, log)
  return answer

variable [Scalar α]

def applyRule (id : NodeId) (rule : Rule) : Recording α TransformError Bool := do
  let rewritten ← silently (Pipeline.applyRule id rule)
  if rewritten then modify fun (s, log) => (s, log ++ [⟨rule, id⟩])
  return rewritten

def sweep (rules : OpKind → List Rule) : Recording α TransformError Nat := do
  let order ← silently (Rewrite.editGraph (Edit.attempt Graph.topologicalOrder))
  order.foldlM (fun rewrites id => do
    match (← silently Rewrite.graph).kind? id with
    | none => return rewrites
    | some kind =>
      if ← (rules kind).anyM (applyRule id) then return rewrites + 1 else return rewrites) 0

def sweeps : Nat → Report → Recording α RunError Report
  | 0, report => return report
  | count + 1, report => do
    let number := report.sweeps + 1
    let rewrites ← ExceptT.adapt (.sweep number) (sweep Rule.forKind)
    let report := { report with sweeps := number, rewrites := report.rewrites + rewrites }
    if rewrites = 0 then return { report with converged := true } else sweeps count report

def cleanupSweep (rule : Rule) : Recording α TransformError Nat :=
  sweep fun kind => if kind ∈ rule.pattern.kinds then [rule] else []

def tidying : Recording α RunError (List Nat) :=
  Rule.cleanup.mapM fun rule => ExceptT.adapt (.cleanup rule) (cleanupSweep rule)

def rewriting (settings : Settings) : Recording α RunError Report := do
  let conflicts := (← silently get).graph.attributes.conflicts
  let report ← sweeps (max settings.params.maxSweeps 1) ⟨0, 0, false, 0, conflicts, 0⟩
  let cleanups ← tidying
  return { report with
    cleanupRewrites := cleanups.foldl (· + ·) 0
    degenerate := (← silently get).context.degenerate }

def transform (settings : Settings) : Recording α RunError Report := do
  silently (Pipeline.analyses settings)
  rewriting settings

def run (settings : Settings) (g : Graph α) :
    Checked (Except RunError Report × Graph α × List Firing) := do
  let (outcome, session, log) ← exec (transform settings) (⟨g, .start settings.params⟩, [])
  return (outcome, session.graph, log)

end Recording

variable {α ε ε' β γ : Type}

def Erases (x : Recording α ε β) (y : ExceptT ε (StateT (Session α) Checked) β) : Prop :=
  ∀ s log, (exec x (s, log)).map (fun out => (out.1, out.2.1)) = exec y s

theorem Recording.exec_silently (x : ExceptT ε (StateT (Session α) Checked) β)
    (s : Session α) (log : List Firing) :
    exec (silently x) (s, log) = (exec x s).map fun out => (out.1, out.2, log) := by
  rw [silently, exec]
  simp only [ExceptT.run_mk, StateT.run_bind, StateT.run_get, StateT.run_set, StateT.run_pure, pure_bind]
  cases exec x s <;> rfl

namespace Erases

theorem silently (x : ExceptT ε (StateT (Session α) Checked) β) : Erases (Recording.silently x) x := by
  intro s log
  rw [Recording.exec_silently]
  cases exec x s <;> rfl

theorem pure (b : β) :
    Erases (Pure.pure b : Recording α ε β) (Pure.pure b : ExceptT ε (StateT (Session α) Checked) β) :=
  fun _ _ => rfl

theorem bind {x : Recording α ε β} {y : ExceptT ε (StateT (Session α) Checked) β}
    {k : β → Recording α ε γ} {l : β → ExceptT ε (StateT (Session α) Checked) γ} (hx : Erases x y)
    (hk : ∀ b, Erases (k b) (l b)) : Erases (x >>= k) (y >>= l) := by
  intro s log
  rw [exec_bind, exec_bind, ← hx s log]
  rcases exec x (s, log) with fault | ⟨e | b, s', log'⟩
  · rfl
  · rfl
  · exact hk b s' log'

theorem adapt {x : Recording α ε β} {y : ExceptT ε (StateT (Session α) Checked) β} {f : ε → ε'}
    (h : Erases x y) : Erases (ExceptT.adapt f x) (ExceptT.adapt f y) := by
  intro s log
  rw [exec_adapt, exec_adapt, ← h s log]
  cases exec x (s, log) <;> rfl

theorem foldlM {xs : List γ} {f : β → γ → Recording α ε β}
    {f' : β → γ → ExceptT ε (StateT (Session α) Checked) β} {b : β}
    (h : ∀ b c, Erases (f b c) (f' b c)) :
    Erases (xs.foldlM f b) (xs.foldlM f' b) := by
  induction xs generalizing b with
  | nil => exact pure b
  | cons c xs ih =>
    rw [List.foldlM_cons, List.foldlM_cons]
    exact (h b c).bind fun _ => ih

theorem anyM {xs : List γ} {f : γ → Recording α ε Bool}
    {f' : γ → ExceptT ε (StateT (Session α) Checked) Bool} (h : ∀ c, Erases (f c) (f' c)) :
    Erases (xs.anyM f) (xs.anyM f') := by
  induction xs with
  | nil => exact pure false
  | cons c xs ih =>
    rw [List.anyM, List.anyM]
    apply (h c).bind
    intro found
    cases found with
    | true => exact pure true
    | false => exact ih

theorem mapM {xs : List γ} {f : γ → Recording α ε β}
    {f' : γ → ExceptT ε (StateT (Session α) Checked) β} (h : ∀ c, Erases (f c) (f' c)) :
    Erases (xs.mapM f) (xs.mapM f') := by
  induction xs with
  | nil => exact pure []
  | cons c xs ih =>
    rw [List.mapM_cons, List.mapM_cons]
    apply (h c).bind
    intro b
    apply ih.bind
    intro bs
    exact pure (b :: bs)

end Erases

namespace Recording

variable [Scalar α]

theorem erases_applyRule (id : NodeId) (rule : Rule) :
    Erases (applyRule id rule) (Pipeline.applyRule (α := α) id rule) := by
  intro s log
  rw [applyRule, exec_bind, exec_silently]
  rcases exec (Pipeline.applyRule id rule) s with fault | ⟨e | rewritten, s'⟩
  · rfl
  · rfl
  · cases rewritten <;> rfl

theorem erases_sweep (rules : OpKind → List Rule) :
    Erases (sweep rules) (Pipeline.sweep (α := α) rules) := by
  apply (Erases.silently _).bind
  intro order
  refine .foldlM fun rewrites id => ?_
  apply (Erases.silently _).bind
  intro g
  cases g.kind? id with
  | none => exact .pure _
  | some kind =>
    apply (Erases.anyM (erases_applyRule id)).bind
    intro rewritten
    split <;> exact .pure _

theorem erases_sweeps (count : Nat) (report : Report) :
    Erases (sweeps count report) (Pipeline.sweeps (α := α) count report) := by
  induction count generalizing report with
  | zero => exact .pure _
  | succ count ih =>
    apply (erases_sweep Rule.forKind).adapt.bind
    intro rewrites
    dsimp only
    split
    · exact .pure _
    · exact ih _

theorem erases_transform (settings : Settings) :
    Erases (transform settings) (Pipeline.transform (α := α) settings) := by
  rw [Pipeline.transform_eq]
  apply (Erases.silently _).bind
  intro _
  apply (Erases.silently _).bind
  intro _
  apply (erases_sweeps _ _).bind
  intro _
  apply (Erases.mapM fun _ => (erases_sweep _).adapt).bind
  intro _
  apply (Erases.silently _).bind
  intro _
  exact .pure _

theorem run_erased (settings : Settings) (g : Graph α) :
    (run settings g).map (fun out => (out.1, out.2.1)) = Pipeline.run settings g := by
  have h := erases_transform settings ⟨g, .start settings.params⟩ []
  change _ = (exec (Pipeline.transform settings) _ >>= fun out => _)
  rw [← h]
  change ((exec (transform settings) _ >>= fun out => _).map _) = _
  rcases exec (transform settings) _ with fault | out <;> rfl

def Counts (n : Nat) (s : Session α × List Firing) : Prop := s.2.length = n

omit [Scalar α] in
theorem counts_silently (n : Nat) (x : ExceptT ε (StateT (Session α) Checked) β) :
    Ensures (Counts n) (fun _ => Counts n) (fun _ => True) (silently x) := by
  rintro ⟨s, log⟩ r s' hs hrun
  rw [exec_silently] at hrun
  obtain ⟨out, -, hout⟩ := except_map_eq_ok.mp hrun
  cases hout
  exact ⟨fun _ _ => hs, fun _ _ => trivial⟩

theorem counts_applyRule (n : Nat) (id : NodeId) (rule : Rule) :
    Ensures (Counts n) (fun rewritten => Counts (α := α) (n + rewritten.toNat)) (fun _ => True)
      (applyRule id rule) := by
  apply (counts_silently n _).bind
  intro rewritten
  cases rewritten with
  | false => exact .pure fun _ hs => hs
  | true =>
    rintro ⟨s, log⟩ r s' hs hrun
    cases hrun
    refine ⟨fun b hb => ?_, fun _ he => by cases he⟩
    obtain rfl := Except.ok.inj hb
    change (log ++ [_]).length = n + 1
    rw [List.length_append, hs, List.length_singleton]

theorem counts_sweep (n : Nat) (rules : OpKind → List Rule) :
    Ensures (Counts n) (fun rewrites => Counts (α := α) (n + rewrites)) (fun _ => True) (sweep rules) := by
  apply (counts_silently n _).bind
  intro order
  refine .foldlM (b := 0) (P := fun rewrites => Counts (n + rewrites)) fun rewrites id => ?_
  apply (counts_silently _ _).bind
  intro g
  cases g.kind? id with
  | none => exact .pure fun _ hs => hs
  | some kind =>
    refine (Ensures.anyM (P := fun rewritten => Counts (n + rewrites + rewritten.toNat)) fun rule =>
      counts_applyRule _ id rule).bind fun rewritten => ?_
    cases rewritten <;> exact .pure fun _ hs => hs

theorem counts_sweeps (count : Nat) (report : Report) :
    Ensures (Counts report.rewrites) (fun report => Counts (α := α) report.rewrites)
      (fun _ => True) (sweeps count report) := by
  induction count generalizing report with
  | zero => exact .pure fun _ hs => hs
  | succ count ih =>
    apply ((counts_sweep _ Rule.forKind).adapt fun _ _ => trivial).bind
    intro rewrites
    dsimp only
    split
    · exact .pure fun _ hs => hs
    · exact ih ⟨_, report.rewrites + rewrites, _, _, _, _⟩

theorem counts_tidying (n : Nat) :
    Ensures (Counts n) (fun cleanups => Counts (α := α) (n + cleanups.foldl (· + ·) 0)) (fun _ => True)
      tidying := by
  have hsweep : ∀ n rule, Ensures (Counts (α := α) n) (fun rewrites => Counts (n + rewrites))
      (fun _ => True) (ExceptT.adapt (RunError.cleanup rule) (cleanupSweep rule)) := fun n rule =>
    (counts_sweep n _).adapt fun _ _ => trivial
  rw [tidying]
  simp only [Rule.cleanup, List.mapM_cons, List.mapM_nil, bind_assoc, pure_bind]
  apply (hsweep n _).bind
  intro a
  apply (hsweep _ _).bind
  intro b
  apply (hsweep _ _).bind
  intro c
  refine .pure fun s hs => ?_
  rwa [List.foldl_cons, List.foldl_cons, List.foldl_cons, List.foldl_nil, Nat.zero_add, ← Nat.add_assoc,
    ← Nat.add_assoc]

theorem length_log {settings : Settings} {g g' : Graph α} {report : Report} {log : List Firing}
    (hrun : run settings g = .ok (.ok report, g', log)) :
    log.length = report.rewrites + report.cleanupRewrites := by
  have hcounts : Ensures (Counts 0) (fun report => Counts (α := α) (report.rewrites + report.cleanupRewrites))
      (fun _ => True) (transform settings) := by
    apply (counts_silently 0 _).bind
    intro _
    apply (counts_silently 0 _).bind
    intro _
    apply (counts_sweeps _ ⟨0, 0, false, 0, _, 0⟩).bind
    intro _
    apply (counts_tidying _).bind
    intro _
    apply (counts_silently _ _).bind
    intro _
    exact .pure fun _ hs => hs
  obtain ⟨⟨outcome, s⟩, hexec, hout⟩ := except_bind_eq_ok.mp hrun
  cases hout
  exact (hcounts (⟨g, .start settings.params⟩, []) _ _ rfl hexec).1 report rfl

end Recording

end LowPrecision
