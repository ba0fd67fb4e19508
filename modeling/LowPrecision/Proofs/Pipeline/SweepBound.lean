import LowPrecision.Pipeline
import LowPrecision.Proofs.Rewrite.Steps

namespace LowPrecision

variable {α : Type}

def Params.bounded (bound : Nat) (p : Params) : Params := { p with maxSweeps := bound }

def Settings.bounded (bound : Nat) (s : Settings) : Settings :=
  { s with params := s.params.bounded bound }

def Context.bounded (bound : Nat) (c : Context) : Context :=
  { c with params := c.params.bounded bound }

def Session.bounded (bound : Nat) (s : Session α) : Session α :=
  { s with context := s.context.bounded bound }

variable {β γ ε ε' : Type}

def Blind (x : ExceptT ε (StateT (Session α) Checked) β) : Prop :=
  ∀ bound s r s', exec x s = .ok (r, s') → exec x (s.bounded bound) = .ok (r, s'.bounded bound)

namespace Blind

theorem pure (b : β) : Blind (Pure.pure b : ExceptT ε (StateT (Session α) Checked) β) := by
  intro bound s r s' h
  cases h
  rfl

theorem throw (e : ε) : Blind (MonadExcept.throw e : ExceptT ε (StateT (Session α) Checked) β) := by
  intro bound s r s' h
  cases h
  rfl

theorem lift (c : Checked β) : Blind (liftM c : ExceptT ε (StateT (Session α) Checked) β) := by
  intro bound s r s' h
  rw [exec_lift] at h ⊢
  cases c <;> cases h
  rfl

theorem bind {x : ExceptT ε (StateT (Session α) Checked) β}
    {k : β → ExceptT ε (StateT (Session α) Checked) γ} (hx : Blind x) (hk : ∀ b, Blind (k b)) :
    Blind (x >>= k) := by
  intro bound s r s' h
  rcases exec_bind_eq_ok.mp h with ⟨b, t, hb, h⟩ | ⟨e, he, rfl⟩
  · rw [exec_bind_ok (hx bound s _ t hb)]
    exact hk b bound t r s' h
  · rw [exec_bind_error (hx bound s _ s' he)]

theorem map {x : Rewrite α β} (h : Blind x) (f : β → γ) : Blind (f <$> x) := h.bind fun _ => pure _

theorem edit (e : Edit α TransformError β) : Blind (Rewrite.edit e) := by
  intro bound s r s' h
  obtain ⟨hgraph, hcontext⟩ := Rewrite.exec_edit_eq.mp h
  exact Rewrite.exec_edit_eq.mpr ⟨hgraph, congrArg (Context.bounded bound) hcontext⟩

theorem graph {k : Graph α → Rewrite α β} (h : ∀ g, Blind (k g)) :
    Blind (Rewrite.graph >>= k) := by
  intro bound s r s' hrun
  rw [exec_bind_ok (Rewrite.exec_graph _)] at hrun ⊢
  exact h s.graph bound s r s' hrun

theorem context {k : Context → Rewrite α β} (h : ∀ c, Blind (k c))
    (hk : ∀ c bound, k (c.bounded bound) = k c) : Blind (Rewrite.context >>= k) := by
  intro bound s r s' hrun
  rw [exec_bind_ok (Rewrite.exec_context _)] at hrun ⊢
  exact (congrArg (exec · _) (hk s.context bound)).trans (h s.context bound s r s' hrun)

theorem changeContext {f : Context → Context}
    (hf : ∀ c bound, f (c.bounded bound) = (f c).bounded bound) :
    Blind (Rewrite.changeContext (α := α) f) := by
  intro bound s r s' h
  cases h
  change exec (Rewrite.changeContext f) (s.bounded bound) =
    .ok (.ok (), ⟨s.graph, (f s.context).bounded bound⟩)
  rw [← hf]
  rfl

theorem markHandled (name : String) : Blind (Rewrite.markHandled (α := α) name) := by
  apply changeContext
  intro c bound
  change (if c.isHandled name then _ else _) = Context.bounded bound (if c.isHandled name then _ else _)
  split <;> rfl

theorem tryCatch {x : Rewrite α β} {handle : TransformError → Rewrite α β} (hx : Blind x)
    (hhandle : ∀ e, Blind (handle e)) : Blind (tryCatch x handle) := by
  intro bound s r s' h
  rw [exec_tryCatch] at h ⊢
  cases hrun : exec x s with
  | error fault =>
    rw [hrun] at h
    cases h
  | ok out =>
    obtain ⟨answer, t⟩ := out
    rw [hrun] at h
    rw [hx bound s answer t hrun]
    cases answer with
    | ok b =>
      cases h
      rfl
    | error e => exact hhandle e bound t r s' h

theorem forM {xs : List γ} {f : γ → ExceptT ε (StateT (Session α) Checked) Unit} (h : ∀ c, Blind (f c)) :
    Blind (xs.forM f) := by
  induction xs with
  | nil => exact pure ()
  | cons c xs ih => exact (h c).bind fun _ => ih

theorem adapt {f : ε → ε'} {x : ExceptT ε (StateT (Session α) Checked) β} (h : Blind x) :
    Blind (ExceptT.adapt f x) := by
  intro bound s r s' hrun
  rw [exec_adapt] at hrun ⊢
  cases hx : exec x s with
  | error fault =>
    rw [hx] at hrun
    cases hrun
  | ok out =>
    rw [hx] at hrun
    cases hrun
    rw [h bound s out.1 out.2 hx]
    rfl

theorem anyM {xs : List γ} {f : γ → Rewrite α Bool} (h : ∀ c, Blind (f c)) :
    Blind (xs.anyM f) := by
  induction xs with
  | nil => exact pure false
  | cons c xs ih =>
    rw [List.anyM]
    apply (h c).bind
    intro b
    cases b with
    | true => exact pure true
    | false => exact ih

theorem foldlM {xs : List γ} {f : β → γ → Rewrite α β} {b : β} (h : ∀ b c, Blind (f b c)) :
    Blind (xs.foldlM f b) := by
  induction xs generalizing b with
  | nil => exact pure b
  | cons c xs ih =>
    rw [List.foldlM_cons]
    exact (h b c).bind fun b => ih

end Blind

variable [Scalar α]

theorem blind_decompose (id : NodeId) : Blind (Decomposition.decompose (α := α) id) := by
  apply (Blind.edit _).bind
  intro r
  apply (Blind.lift _).bind
  intro bounds
  apply (Blind.edit _).bind
  intro grid
  apply (Blind.lift _).bind
  intro params
  apply (Blind.changeContext fun _ _ => rfl).bind
  intro _
  apply (Blind.edit _).bind
  intro affine
  refine Blind.context (fun c => ?_) fun _ _ => rfl
  apply (Blind.edit _).bind
  intro placed
  apply (Blind.markHandled _).bind
  intro _
  exact .pure _

omit [Scalar α] in
theorem blind_lowerBoundary (type : ElementType) (branches : List (NodeId × Branch α)) :
    Blind (ConcatPlan.lowerBoundary type branches) := by
  induction branches with
  | nil => exact .pure _
  | cons branch branches ih =>
    apply (Blind.edit _).bind
    intro n
    apply (Blind.edit _).bind
    intro lowered
    apply (Blind.edit _).bind
    intro _
    apply (Blind.changeContext fun _ _ => rfl).bind
    intro _
    exact ih.bind fun rest => .pure _

theorem blind_concat (plan : ConcatPlan α) : Blind plan.apply := by
  refine Blind.context (fun c => ?_) fun _ _ => rfl
  apply (blind_lowerBoundary _ _).bind
  intro lowered
  apply (Blind.edit _).bind
  intro order
  refine (Blind.edit _).bind fun _ => (Blind.forM fun id => ?_).bind fun _ => ?_
  · split
    · exact .edit _
    · exact .pure _
  · exact .forM fun _ => .markHandled _

omit [Scalar α] in
theorem blind_withPlan {plan? : Option β} {f : β → Rewrite α Unit} (h : ∀ plan, Blind (f plan)) :
    Blind (Rule.withPlan plan? f) := by
  cases plan? with
  | none => exact .pure _
  | some plan => exact (h plan).bind fun _ => .pure _

theorem blind_apply (rule : Rule) (m : NodeMatch) : Blind (rule.apply (α := α) m) := by
  refine Blind.graph fun g => ?_
  cases rule with
  | decomposition => 
    refine Blind.context (fun c => ?_) fun _ _ => rfl
    exact ((blind_decompose _).map _).bind fun _ => .pure _
  | matMul | convolution =>
    refine Blind.context (fun c => ?_) fun _ _ => rfl
    exact (Blind.lift _).bind fun plan? => blind_withPlan fun plan => .edit _
  | concat =>
    refine Blind.context (fun c => ?_) fun _ _ => rfl
    exact (Blind.lift _).bind fun plan? => blind_withPlan blind_concat
  | depthToSpace | transparent =>
    refine Blind.context (fun c => ?_) fun _ _ => rfl
    exact blind_withPlan fun plan => .edit _
  | convertFusion | sanitization | foldConvert | fuseSubtract | fuseMultiply =>
    refine Blind.context (fun c => ?_) fun _ _ => rfl
    exact .edit _

theorem blind_applyRule (id : NodeId) (rule : Rule) :
    Blind (Pipeline.applyRule (α := α) id rule) := by
  refine Blind.graph fun g => ?_
  split
  · exact .pure _
  · next m _ =>
    refine Blind.context (fun c => ?_) fun c bound => ?_
    · apply (Blind.lift _).bind
      intro can
      split
      · refine (blind_apply rule m).tryCatch fun e => ?_
        split
        · exact .throw _
        · exact .pure _
      · exact .pure _
    · cases rule <;> rfl

theorem blind_sweep (rules : OpKind → List Rule) : Blind (Pipeline.sweep (α := α) rules) := by
  refine (Blind.edit _).bind fun order => Blind.foldlM fun rewrites id => Blind.graph fun g => ?_
  split
  · exact .pure _
  · apply (Blind.anyM fun rule => blind_applyRule id rule).bind
    intro found
    split
    · exact .pure _
    · exact .pure _

end LowPrecision
