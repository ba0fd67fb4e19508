import Mathlib.Data.List.Forall2
import LowPrecision.Checked

/-!
Runs of computations on a state that can stop with an error midway, and what they keep.
-/

namespace LowPrecision

variable {σ ε ε' β γ : Type}

/-- The answer of a computation with the state that it leaves behind. -/
def exec (x : ExceptT ε (StateT σ Checked) β) (s : σ) : Checked (Except ε β × σ) := x.run.run s

@[simp] theorem exec_pure (b : β) (s : σ) :
    exec (pure b : ExceptT ε (StateT σ Checked) β) s = .ok (.ok b, s) := rfl

@[simp] theorem exec_throw (e : ε) (s : σ) :
    exec (throw e : ExceptT ε (StateT σ Checked) β) s = .ok (.error e, s) := rfl

theorem exec_get (s : σ) : exec (get : ExceptT ε (StateT σ Checked) σ) s = .ok (.ok s, s) := rfl

theorem exec_getThe (s : σ) : exec (getThe σ : ExceptT ε (StateT σ Checked) σ) s = .ok (.ok s, s) :=
  rfl

theorem exec_bind (x : ExceptT ε (StateT σ Checked) β) (k : β → ExceptT ε (StateT σ Checked) γ)
    (s : σ) :
    exec (x >>= k) s =
      match exec x s with
      | .ok (.ok b, s') => exec (k b) s'
      | .ok (.error e, s') => .ok (.error e, s')
      | .error fault => .error fault := by
  change StateT.run (ExceptT.run (x >>= k)) s = _
  simp only [ExceptT.run_bind, StateT.run_bind, exec]
  cases StateT.run (ExceptT.run x) s with
  | error fault => rfl
  | ok out => obtain ⟨_ | _, s'⟩ := out <;> rfl

section Bind

variable {x : ExceptT ε (StateT σ Checked) β} {s s' : σ}

theorem exec_bind_ok {b : β} (h : exec x s = .ok (.ok b, s'))
    (k : β → ExceptT ε (StateT σ Checked) γ) : exec (x >>= k) s = exec (k b) s' := by
  rw [exec_bind, h]

theorem exec_bind_error {e : ε} (h : exec x s = .ok (.error e, s'))
    (k : β → ExceptT ε (StateT σ Checked) γ) : exec (x >>= k) s = .ok (.error e, s') := by
  rw [exec_bind, h]

theorem exec_bind_fault {fault : Fault} (h : exec x s = .error fault)
    (k : β → ExceptT ε (StateT σ Checked) γ) : exec (x >>= k) s = .error fault := by
  rw [exec_bind, h]

theorem exec_bind_eq_ok {k : β → ExceptT ε (StateT σ Checked) γ} {r : Except ε γ} :
    exec (x >>= k) s = .ok (r, s') ↔
      (∃ b t, exec x s = .ok (.ok b, t) ∧ exec (k b) t = .ok (r, s')) ∨
        ∃ e, exec x s = .ok (.error e, s') ∧ r = .error e := by
  rw [exec_bind]
  rcases exec x s with fault | ⟨e | b, t⟩
  · simp
  · constructor
    · rintro ⟨⟩
      exact .inr ⟨e, rfl, rfl⟩
    · rintro (⟨b, t', h, -⟩ | ⟨e', h, rfl⟩)
      · cases h
      · cases h
        rfl
  · constructor
    · intro h
      exact .inl ⟨b, t, rfl, h⟩
    · rintro (⟨b', t', h, h'⟩ | ⟨e, h, -⟩)
      · cases h
        exact h'
      · cases h

theorem exec_bind_eq_answer {k : β → ExceptT ε (StateT σ Checked) γ} {c : γ} :
    exec (x >>= k) s = .ok (.ok c, s') ↔
      ∃ b t, exec x s = .ok (.ok b, t) ∧ exec (k b) t = .ok (.ok c, s') := by
  simp [exec_bind_eq_ok]

theorem exec_map_ok {b : β} (f : β → γ) (h : exec x s = .ok (.ok b, s')) :
    exec (f <$> x) s = .ok (.ok (f b), s') := by
  change exec (x >>= fun b => pure (f b)) s = _
  rw [exec_bind_ok h, exec_pure]

theorem exec_discard_ok {b : β} (h : exec x s = .ok (.ok b, s')) :
    exec (discard x) s = .ok (.ok (), s') := exec_map_ok (fun _ => ()) h

theorem exec_map_cases {f : β → γ} {r : Except ε γ} (h : exec (f <$> x) s = .ok (r, s')) :
    ∃ r₀, exec x s = .ok (r₀, s') ∧ r = r₀.map f := by
  change exec (x >>= fun b => pure (f b)) s = _ at h
  rcases exec_bind_eq_ok.mp h with ⟨b, t, hx, hpure⟩ | ⟨e, hx, rfl⟩
  · cases hpure
    exact ⟨_, hx, rfl⟩
  · exact ⟨_, hx, rfl⟩

theorem exec_adapt (f : ε → ε') (x : ExceptT ε (StateT σ Checked) β) (s : σ) :
    exec (ExceptT.adapt f x) s = (exec x s).map fun out => (out.1.mapError f, out.2) := by
  change StateT.run (Except.mapError f <$> x.run) s = _
  rw [StateT.run_map]
  rfl

theorem exec_adapt_eq_ok {b : β} {f : ε → ε'} :
    exec (ExceptT.adapt f x) s = .ok (.ok b, s') ↔ exec x s = .ok (.ok b, s') := by
  rw [exec_adapt]
  rcases exec x s with fault | ⟨e | c, t⟩ <;> simp [Except.map, Except.mapError]

theorem exec_tryCatch (x : ExceptT ε (StateT σ Checked) β)
    (handle : ε → ExceptT ε (StateT σ Checked) β) (s : σ) :
    exec (tryCatch x handle) s =
      match exec x s with
      | .ok (.error e, s') => exec (handle e) s'
      | .ok (.ok b, s') => .ok (.ok b, s')
      | .error fault => .error fault := by
  change StateT.run (ExceptT.run x >>= fun r =>
    match r with
    | .ok b => pure (.ok b)
    | .error e => handle e) s = _
  rw [StateT.run_bind, exec]
  cases StateT.run (ExceptT.run x) s with
  | error fault => rfl
  | ok out => obtain ⟨_ | _, s'⟩ := out <;> rfl

end Bind

theorem exec_lift (c : Checked β) (s : σ) :
    exec (liftM c : ExceptT ε (StateT σ Checked) β) s = c.map fun b => (.ok b, s) := by
  cases c <;> rfl

theorem exec_lift_eq_ok {c : Checked β} {s s' : σ} {b : β} :
    exec (liftM c : ExceptT ε (StateT σ Checked) β) s = .ok (.ok b, s') ↔ c = .ok b ∧ s' = s := by
  rw [exec_lift]
  cases c <;> simp [Except.map, eq_comm]

theorem exec_lift_ne_error (c : Checked β) (s s' : σ) (e : ε) :
    exec (liftM c : ExceptT ε (StateT σ Checked) β) s ≠ .ok (.error e, s') := by
  rw [exec_lift]
  cases c <;> simp [Except.map]

theorem exec_forM_range {P : Nat → σ → Prop} {body : Nat → ExceptT ε (StateT σ Checked) Unit}
    {n : Nat} (h : ∀ i < n, ∀ s, P i s → ∃ s', exec (body i) s = .ok (.ok (), s') ∧ P (i + 1) s')
    {s : σ} (hs : P 0 s) :
    ∃ s', exec ((List.range n).forM body) s = .ok (.ok (), s') ∧ P n s' := by
  have hfrom : ∀ m i s, i + m = n → P i s →
      ∃ s', exec ((List.range' i m).forM body) s = .ok (.ok (), s') ∧ P n s' := by
    intro m
    induction m with
    | zero =>
      intro i s hi hs
      exact ⟨s, rfl, hi ▸ hs⟩
    | succ m ih =>
      intro i s hi hs
      obtain ⟨s₁, hbody, hs₁⟩ := h i (by omega) s hs
      rw [List.range'_succ, List.forM, exec_bind_ok hbody]
      exact ih (i + 1) s₁ (by omega) hs₁
  rw [List.range_eq_range']
  exact hfrom n 0 s (Nat.zero_add n) hs

section Answers

theorem except_bind_eq_ok {x : Except ε β} {k : β → Except ε γ} {c : γ} :
    x >>= k = .ok c ↔ ∃ b, x = .ok b ∧ k b = .ok c := by
  cases x <;> simp [bind, Except.bind]

theorem except_map_eq_ok {x : Except ε β} {f : β → γ} {c : γ} :
    x.map f = .ok c ↔ ∃ b, x = .ok b ∧ f b = c := by
  cases x <;> simp [Except.map]

theorem except_toOption_eq_some {x : Except ε β} {b : β} : x.toOption = some b ↔ x = .ok b := by
  cases x <;> simp [Except.toOption]

theorem attempt_bind_eq_ok {x : Attempt ε β} {k : β → Attempt ε γ} {c : γ} :
    (x >>= k).run = .ok (.ok c) ↔ ∃ b, x.run = .ok (.ok b) ∧ (k b).run = .ok (.ok c) := by
  rw [ExceptT.run_bind, except_bind_eq_ok]
  constructor
  · rintro ⟨e | b, hx, hk⟩
    · cases hk
    · exact ⟨b, hx, hk⟩
  · rintro ⟨b, hx, hk⟩
    exact ⟨.ok b, hx, hk⟩

theorem attempt_bind_ok {x : Attempt ε β} {b : β} (h : x.run = .ok (.ok b)) (k : β → Attempt ε γ) :
    (x >>= k).run = (k b).run := by
  rw [ExceptT.run_bind, h]
  rfl

theorem attempt_bind_fault {x : Attempt ε β} {fault : Fault} (h : x.run = .error fault)
    (k : β → Attempt ε γ) : (x >>= k).run = .error fault := by
  rw [ExceptT.run_bind, h]
  rfl

theorem attempt_answer_bind (b : β) (k : β → Attempt ε γ) :
    (liftM (Except.ok b : Except ε β) >>= k) = k b := rfl

theorem attempt_checked_bind (b : β) (k : β → Attempt ε γ) :
    (liftM (Except.ok b : Checked β) >>= k) = k b := rfl

theorem attempt_pure_eq_ok {b c : β} :
    (pure b : Attempt ε β).run = .ok (.ok c) ↔ b = c := by
  change Except.ok (Except.ok b) = Except.ok (Except.ok c) ↔ _
  simp only [Except.ok.injEq]

theorem attempt_map_eq_ok {x : Attempt ε β} {f : β → γ} {c : γ} :
    (f <$> x).run = .ok (.ok c) ↔ ∃ b, x.run = .ok (.ok b) ∧ f b = c := by
  change (x >>= fun b => pure (f b)).run = _ ↔ _
  rw [attempt_bind_eq_ok]
  exact exists_congr fun b => and_congr_right fun _ => attempt_pure_eq_ok

theorem attempt_lift_eq_ok {x : Checked β} {b : β} :
    (liftM x : Attempt ε β).run = .ok (.ok b) ↔ x = .ok b := by
  cases x <;> simp [liftM, monadLift, MonadLift.monadLift, ExceptT.lift, Functor.map, Except.map,
    ExceptT.run, ExceptT.mk]

theorem attempt_lift_fault {x : Checked β} {fault : Fault} (h : x = .error fault) :
    (liftM x : Attempt ε β).run = .error fault := by
  rw [h]
  rfl

theorem attempt_adapt_eq_ok {f : ε → ε'} {x : Attempt ε β} {b : β} :
    (ExceptT.adapt f x).run = .ok (.ok b) ↔ x.run = .ok (.ok b) := by
  change Except.map (Except.mapError f) x.run = _ ↔ _
  rcases x.run with fault | e | c <;> simp [Except.map, Except.mapError]

theorem except_ok_bind (b : β) (k : β → Except ε γ) : Except.ok b >>= k = k b := rfl

theorem except_mapM_congr {f g : β → Except ε γ} {bs : List β} (h : ∀ b ∈ bs, f b = g b) :
    bs.mapM f = bs.mapM g := by
  induction bs with
  | nil => rfl
  | cons b bs ih =>
    rw [List.mapM_cons, List.mapM_cons, h b List.mem_cons_self, ih fun c hc => h c (List.mem_cons_of_mem b hc)]

theorem except_foldlM_keeps {P : γ → Prop} {step : γ → β → Except ε γ} {bs : List β} {c c' : γ}
    (h : ∀ b ∈ bs, ∀ c c', P c → step c b = .ok c' → P c') (hc : P c)
    (hrun : bs.foldlM step c = .ok c') : P c' := by
  induction bs generalizing c with
  | nil =>
    cases hrun
    exact hc
  | cons b bs ih =>
    rw [List.foldlM_cons] at hrun
    obtain ⟨c₁, hstep, hrest⟩ := except_bind_eq_ok.mp hrun
    exact ih (fun d hd => h d (List.mem_cons_of_mem b hd)) (h b List.mem_cons_self c c₁ hc hstep) hrest

theorem except_mapM_eq_ok {f : β → Except ε γ} {bs : List β} {cs : List γ} :
    bs.mapM f = .ok cs ↔ List.Forall₂ (fun b c => f b = .ok c) bs cs := by
  induction bs generalizing cs with
  | nil =>
    rw [List.mapM_nil, List.forall₂_nil_left_iff]
    change Except.ok [] = Except.ok cs ↔ _
    rw [Except.ok.injEq, eq_comm]
  | cons b bs ih =>
    rw [List.mapM_cons, except_bind_eq_ok, List.forall₂_cons_left_iff]
    refine exists_congr fun c => ?_
    simp only [except_bind_eq_ok, ih]
    constructor
    · rintro ⟨hc, rest, hrest, hcs⟩
      cases hcs
      exact ⟨rest, hc, hrest, rfl⟩
    · rintro ⟨rest, hc, hrest, rfl⟩
      exact ⟨hc, rest, hrest, rfl⟩

theorem except_anyM_ok {f : β → Except ε Bool} (h : ∀ b, ∃ found, f b = .ok found) (bs : List β) :
    ∃ found, bs.anyM f = .ok found := by
  induction bs with
  | nil => exact ⟨false, rfl⟩
  | cons b bs ih =>
    obtain ⟨found, hfound⟩ := h b
    rw [List.anyM, hfound]
    cases found with
    | true => exact ⟨true, rfl⟩
    | false => exact ih

theorem attempt_mapM_eq_ok {f : β → Attempt ε γ} {bs : List β} {cs : List γ} :
    (bs.mapM f).run = .ok (.ok cs) ↔ List.Forall₂ (fun b c => (f b).run = .ok (.ok c)) bs cs := by
  induction bs generalizing cs with
  | nil =>
    rw [List.mapM_nil, attempt_pure_eq_ok, List.forall₂_nil_left_iff, eq_comm]
  | cons b bs ih =>
    rw [List.mapM_cons, attempt_bind_eq_ok, List.forall₂_cons_left_iff]
    refine exists_congr fun c => ?_
    simp only [attempt_bind_eq_ok, attempt_pure_eq_ok, ih, eq_comm (b := cs)]
    constructor
    · rintro ⟨hc, rest, hrest, rfl⟩
      exact ⟨rest, hc, hrest, rfl⟩
    · rintro ⟨rest, hc, hrest, rfl⟩
      exact ⟨hc, rest, hrest, rfl⟩

def Attempt.Fails (q : ε → Prop) (x : Attempt ε β) : Prop := ∀ e, x.run = .ok (.error e) → q e

namespace Attempt.Fails

variable {q : ε → Prop}

theorem pure (b : β) : Fails q (Pure.pure b : Attempt ε β) := fun _ h => by cases h

theorem lift (x : Checked β) : Fails q (liftM x : Attempt ε β) := by
  intro e h
  cases x <;> cases h

theorem throw {e : ε} (h : q e) : Fails q (MonadExcept.throw e : Attempt ε β) := by
  intro e' h'
  cases h'
  exact h

theorem bind {x : Attempt ε β} {k : β → Attempt ε γ} (hx : Fails q x) (hk : ∀ b, Fails q (k b)) :
    Fails q (x >>= k) := by
  intro e h
  rw [ExceptT.run_bind, except_bind_eq_ok] at h
  obtain ⟨e' | b, hb, h⟩ := h
  · cases h
    exact hx _ hb
  · exact hk b e h

theorem adapt {f : ε' → ε} (x : Attempt ε' β) (h : ∀ e, q (f e)) : Fails q (ExceptT.adapt f x) := by
  intro e he
  change Except.map (Except.mapError f) x.run = _ at he
  rcases hx : x.run with fault | e' | b <;> rw [hx] at he <;> cases he
  exact h e'

theorem mapM {f : β → Attempt ε γ} {bs : List β} (h : ∀ b ∈ bs, Fails q (f b)) :
    Fails q (bs.mapM f) := by
  induction bs with
  | nil => exact pure []
  | cons b bs ih =>
    rw [List.mapM_cons]
    exact bind (h b (by simp)) fun _ => bind (ih fun c hc => h c (by simp [hc])) fun _ => pure _

theorem anyM {f : β → Attempt ε Bool} {bs : List β} (h : ∀ b ∈ bs, Fails q (f b)) :
    Fails q (bs.anyM f) := by
  induction bs with
  | nil => exact pure false
  | cons b bs ih =>
    rw [List.anyM]
    refine bind (h b (by simp)) fun found => ?_
    cases found with
    | true => exact pure true
    | false => exact ih fun c hc => h c (by simp [hc])

end Attempt.Fails

def Attempt.Yields (p : β → Prop) (x : Attempt ε β) : Prop := ∃ r, x.run = .ok r ∧ ∀ b, r = .ok b → p b

namespace Attempt.Yields

variable {p : β → Prop} {q : γ → Prop}

theorem pure {b : β} (h : p b) : Yields p (Pure.pure b : Attempt ε β) :=
  ⟨.ok b, rfl, fun _ hb => Except.ok.inj hb ▸ h⟩

theorem throw (e : ε) : Yields p (MonadExcept.throw e : Attempt ε β) :=
  ⟨.error e, rfl, fun _ hb => by cases hb⟩

theorem lift {x : Checked β} (h : ∃ b, x = .ok b ∧ p b) : Yields p (liftM x : Attempt ε β) := by
  obtain ⟨b, rfl, hb⟩ := h
  exact ⟨.ok b, rfl, fun _ hc => Except.ok.inj hc ▸ hb⟩

theorem bind {x : Attempt ε β} {k : β → Attempt ε γ} (hx : Yields p x) (hk : ∀ b, p b → Yields q (k b)) :
    Yields q (x >>= k) := by
  obtain ⟨r, hr, hp⟩ := hx
  rw [Yields, ExceptT.run_bind, hr]
  cases r with
  | error e => exact ⟨.error e, rfl, fun _ hc => by cases hc⟩
  | ok b => exact hk b (hp b rfl)

theorem imp {p' : β → Prop} {x : Attempt ε β} (h : Yields p x) (hp : ∀ b, p b → p' b) : Yields p' x := by
  obtain ⟨r, hr, hyields⟩ := h
  exact ⟨r, hr, fun b hb => hp b (hyields b hb)⟩

theorem map {f : β → γ} {x : Attempt ε β} (h : Yields (fun b => q (f b)) x) : Yields q (f <$> x) :=
  h.bind fun _ => .pure

theorem adapt {f : ε' → ε} {x : Attempt ε' β} (h : Yields p x) : Yields p (ExceptT.adapt f x) := by
  obtain ⟨r, hr, hp⟩ := h
  refine ⟨r.mapError f, ?_, fun b hb => hp b ?_⟩
  · change Except.map (Except.mapError f) x.run = _
    rw [hr]
    rfl
  · cases r <;> cases hb
    rfl

theorem mapM {f : γ → Attempt ε β} {xs : List γ} (h : ∀ c ∈ xs, Yields (fun _ => True) (f c)) :
    Yields (fun _ => True) (xs.mapM f) := by
  induction xs with
  | nil => exact .pure trivial
  | cons c xs ih =>
    rw [List.mapM_cons]
    exact (h c List.mem_cons_self).bind fun _ _ =>
      (ih fun d hd => h d (List.mem_cons_of_mem c hd)).bind fun _ _ => .pure trivial

end Attempt.Yields

def Checked.Finds (p : β → Prop) (x : Checked (Option β)) : Prop := ∃ r, x = .ok r ∧ ∀ b, r = some b → p b

namespace Checked.Finds

variable {p : β → Prop} {q : γ → Prop}

theorem none : Finds p (Pure.pure Option.none) := ⟨.none, rfl, fun _ hb => by cases hb⟩

theorem some {b : β} (h : p b) : Finds p (Pure.pure (Option.some b)) :=
  ⟨_, rfl, fun _ hb => Option.some.inj hb ▸ h⟩

theorem imp {p' : β → Prop} {x : Checked (Option β)} (h : Finds p x) (hp : ∀ b, p b → p' b) : Finds p' x := by
  obtain ⟨r, hr, hfound⟩ := h
  exact ⟨r, hr, fun b hb => hp b (hfound b hb)⟩

theorem step {x : Checked β} {k : β → Checked (Option γ)} (hx : ∃ b, x = .ok b ∧ p b)
    (hk : ∀ b, p b → Finds q (k b)) : Finds q (x >>= k) := by
  obtain ⟨b, rfl, hb⟩ := hx
  exact hk b hb

theorem bind {x : Checked (Option β)} {k : Option β → Checked (Option γ)} (hx : Finds p x)
    (hnone : Finds q (k .none)) (hk : ∀ b, p b → Finds q (k (.some b))) : Finds q (x >>= k) := by
  obtain ⟨r, rfl, hp⟩ := hx
  cases r with
  | none => exact hnone
  | some b => exact hk b (hp b rfl)

theorem map {f : β → γ} {x : Checked (Option β)} (h : Finds p x) (hf : ∀ b, p b → q (f b)) :
    Finds q (x >>= fun r => Pure.pure (r.map f)) :=
  h.bind none fun b hb => some (hf b hb)

end Checked.Finds

def Checked.Stops (q : Fault → Prop) (x : Checked β) : Prop := ∀ fault, x = .error fault → q fault

namespace Checked.Stops

variable {q : Fault → Prop}

theorem pure (b : β) : Stops q (Pure.pure b : Checked β) := fun _ h => by cases h

theorem of_ok {x : Checked β} (h : ∃ b, x = .ok b) : Stops q x := by
  obtain ⟨b, rfl⟩ := h
  exact pure b

theorem bind {x : Checked β} {k : β → Checked γ} (hx : Stops q x)
    (hk : ∀ b, x = .ok b → Stops q (k b)) : Stops q (x >>= k) := by
  cases x with
  | error fault => exact fun _ h => Except.error.inj h ▸ hx fault rfl
  | ok b => exact hk b rfl

end Checked.Stops

end Answers

def Silent (x : ExceptT ε (StateT σ Checked) β) : Prop :=
  ∀ s r s', exec x s = .ok (r, s') → s' = s

namespace Silent

theorem pure (b : β) : Silent (Pure.pure b : ExceptT ε (StateT σ Checked) β) := by
  intro s r s' h
  cases h
  rfl

theorem throw (e : ε) : Silent (MonadExcept.throw e : ExceptT ε (StateT σ Checked) β) := by
  intro s r s' h
  cases h
  rfl

theorem lift (c : Checked β) : Silent (liftM c : ExceptT ε (StateT σ Checked) β) := by
  intro s r s' h
  rw [exec_lift] at h
  cases c <;> cases h
  rfl

theorem bind {x : ExceptT ε (StateT σ Checked) β} {k : β → ExceptT ε (StateT σ Checked) γ}
    (hx : Silent x) (hk : ∀ b, Silent (k b)) : Silent (x >>= k) := by
  intro s r s' h
  rcases exec_bind_eq_ok.mp h with ⟨b, t, hb, h⟩ | ⟨e, he, -⟩
  · rw [hk b t r s' h, hx s _ t hb]
  · exact hx s _ s' he

theorem adapt {f : ε → ε'} {x : ExceptT ε (StateT σ Checked) β} (h : Silent x) :
    Silent (ExceptT.adapt f x) := by
  intro s r s' hrun
  rw [exec_adapt] at hrun
  cases hx : exec x s with
  | error fault =>
    rw [hx] at hrun
    cases hrun
  | ok out =>
    rw [hx] at hrun
    cases hrun
    exact h s out.1 out.2 hx

theorem bind_cases {x : ExceptT ε (StateT σ Checked) β} {k : β → ExceptT ε (StateT σ Checked) γ}
    (h : Silent x) {s s' : σ} {r : Except ε γ} (hrun : exec (x >>= k) s = .ok (r, s')) :
    (∃ b, exec x s = .ok (.ok b, s) ∧ exec (k b) s = .ok (r, s')) ∨ ∃ e, r = .error e ∧ s' = s := by
  rcases exec_bind_eq_ok.mp hrun with ⟨b, t, hx, hk⟩ | ⟨e, hx, rfl⟩
  · obtain rfl := h _ _ _ hx
    exact .inl ⟨b, hx, hk⟩
  · exact .inr ⟨e, rfl, h _ _ _ hx⟩

end Silent

/-- A run from a state with the property that comes to an end ends in one. Its errors, if any, are of
the given kind. -/
def Stays (p : σ → Prop) (q : ε → Prop) (x : ExceptT ε (StateT σ Checked) β) : Prop :=
  ∀ s r s', p s → exec x s = .ok (r, s') → p s' ∧ ∀ e, r = .error e → q e

namespace Stays

variable {p : σ → Prop} {q : ε → Prop}

theorem pure (b : β) : Stays p q (Pure.pure b : ExceptT ε (StateT σ Checked) β) := by
  intro s r s' hs h
  cases h
  exact ⟨hs, fun e he => by cases he⟩

theorem lift (c : Checked β) : Stays p q (liftM c : ExceptT ε (StateT σ Checked) β) := by
  intro s r s' hs h
  rw [exec_lift] at h
  cases c <;> cases h
  exact ⟨hs, fun e he => by cases he⟩

theorem bind {x : ExceptT ε (StateT σ Checked) β} {k : β → ExceptT ε (StateT σ Checked) γ}
    (hx : Stays p q x) (hk : ∀ b, Stays p q (k b)) : Stays p q (x >>= k) := by
  intro s r s' hs h
  rcases exec_bind_eq_ok.mp h with ⟨b, t, hb, h⟩ | ⟨e, he, rfl⟩
  · exact hk b t r s' (hx s _ t hs hb).1 h
  · refine ⟨(hx s _ s' hs he).1, fun e' he' => ?_⟩
    cases he'
    exact (hx s _ s' hs he).2 e rfl

theorem forM {xs : List γ} {f : γ → ExceptT ε (StateT σ Checked) Unit}
    (h : ∀ c ∈ xs, Stays p q (f c)) : Stays p q (xs.forM f) := by
  induction xs with
  | nil => exact pure ()
  | cons c xs ih =>
    rw [List.forM]
    exact bind (h c (by simp)) fun _ => ih fun d hd => h d (by simp [hd])

theorem foldlM {xs : List γ} {f : β → γ → ExceptT ε (StateT σ Checked) β} {b : β}
    (h : ∀ b, ∀ c ∈ xs, Stays p q (f b c)) : Stays p q (xs.foldlM f b) := by
  induction xs generalizing b with
  | nil => exact pure b
  | cons c xs ih =>
    rw [List.foldlM_cons]
    exact bind (h b c (by simp)) fun b => ih fun b d hd => h b d (by simp [hd])

theorem mapM {xs : List γ} {f : γ → ExceptT ε (StateT σ Checked) β}
    (h : ∀ c ∈ xs, Stays p q (f c)) : Stays p q (xs.mapM f) := by
  induction xs with
  | nil => exact pure []
  | cons c xs ih =>
    rw [List.mapM_cons]
    exact bind (h c (by simp)) fun _ => bind (ih fun d hd => h d (by simp [hd])) fun _ => pure _

theorem anyM {xs : List γ} {f : γ → ExceptT ε (StateT σ Checked) Bool}
    (h : ∀ c ∈ xs, Stays p q (f c)) : Stays p q (xs.anyM f) := by
  induction xs with
  | nil => exact pure false
  | cons c xs ih =>
    rw [List.anyM]
    refine bind (h c (by simp)) fun b => ?_
    cases b with
    | true => exact pure true
    | false => exact ih fun d hd => h d (by simp [hd])

theorem adapt {ε' : Type} {f : ε → ε'} {q' : ε' → Prop} {x : ExceptT ε (StateT σ Checked) β}
    (h : Stays p q x) (hf : ∀ e, q e → q' (f e)) : Stays p q' (ExceptT.adapt f x) := by
  intro s r s' hs hrun
  rw [exec_adapt] at hrun
  cases hx : exec x s with
  | error fault =>
    rw [hx] at hrun
    cases hrun
  | ok out =>
    obtain ⟨r', t⟩ := out
    rw [hx] at hrun
    cases hrun
    obtain ⟨ht, hq⟩ := h s r' t hs hx
    refine ⟨ht, fun e he => ?_⟩
    cases r' with
    | ok b => cases he
    | error e' =>
      cases he
      exact hf e' (hq e' rfl)

end Stays

theorem Silent.stays {p : σ → Prop} {x : ExceptT ε (StateT σ Checked) β} (h : Silent x) :
    Stays p (fun _ => True) x := by
  intro s r s' hs hrun
  rw [h s r s' hrun]
  exact ⟨hs, fun _ _ => trivial⟩

def Keeps (p : σ → Prop) (x : ExceptT ε (StateT σ Checked) β) : Prop :=
  ∀ s, p s → ∃ r s', exec x s = .ok (r, s') ∧ p s'

namespace Keeps

variable {p : σ → Prop}

theorem pure (b : β) : Keeps p (Pure.pure b : ExceptT ε (StateT σ Checked) β) :=
  fun s h => ⟨.ok b, s, rfl, h⟩

theorem throw (e : ε) : Keeps p (MonadExcept.throw e : ExceptT ε (StateT σ Checked) β) :=
  fun s h => ⟨.error e, s, rfl, h⟩

theorem bind {x : ExceptT ε (StateT σ Checked) β} {k : β → ExceptT ε (StateT σ Checked) γ}
    (hx : Keeps p x) (hk : ∀ b, Keeps p (k b)) : Keeps p (x >>= k) := by
  intro s h
  obtain ⟨r, s', hexec, h'⟩ := hx s h
  cases r with
  | error e => exact ⟨.error e, s', exec_bind_error hexec k, h'⟩
  | ok b =>
    rw [exec_bind_ok hexec]
    exact hk b s' h'

theorem forM {xs : List γ} {f : γ → ExceptT ε (StateT σ Checked) Unit}
    (h : ∀ c ∈ xs, Keeps p (f c)) : Keeps p (xs.forM f) := by
  induction xs with
  | nil => exact pure ()
  | cons c xs ih =>
    rw [List.forM]
    exact bind (h c (by simp)) fun _ => ih fun d hd => h d (by simp [hd])

end Keeps

def Completes (fault : Prop) (p : σ → Prop) (x : ExceptT ε (StateT σ Checked) β) : Prop :=
  ∀ s, p s → (fault ∧ ∃ e, exec x s = .error e) ∨ ∃ b s', exec x s = .ok (.ok b, s') ∧ p s'

namespace Completes

variable {fault : Prop} {p : σ → Prop}

theorem pure (b : β) : Completes fault p (Pure.pure b : ExceptT ε (StateT σ Checked) β) :=
  fun s h => .inr ⟨b, s, rfl, h⟩

theorem bind {x : ExceptT ε (StateT σ Checked) β} {k : β → ExceptT ε (StateT σ Checked) γ}
    (hx : Completes fault p x) (hk : ∀ b, Completes fault p (k b)) :
    Completes fault p (x >>= k) := by
  intro s h
  rcases hx s h with ⟨hfault, e, hexec⟩ | ⟨b, s₁, hexec, h₁⟩
  · exact .inl ⟨hfault, e, exec_bind_fault hexec k⟩
  · rw [exec_bind_ok hexec]
    exact hk b s₁ h₁

theorem forM {xs : List γ} {f : γ → ExceptT ε (StateT σ Checked) Unit}
    (h : ∀ c ∈ xs, Completes fault p (f c)) : Completes fault p (xs.forM f) := by
  induction xs with
  | nil => exact pure ()
  | cons c xs ih =>
    rw [List.forM]
    exact bind (h c (by simp)) fun _ => ih fun d hd => h d (by simp [hd])

theorem foldlM {xs : List γ} {f : β → γ → ExceptT ε (StateT σ Checked) β} {b : β}
    (h : ∀ b c, Completes fault p (f b c)) : Completes fault p (xs.foldlM f b) := by
  induction xs generalizing b with
  | nil => exact pure b
  | cons c xs ih =>
    rw [List.foldlM_cons]
    exact (h b c).bind fun _ => ih

theorem anyM {xs : List γ} {f : γ → ExceptT ε (StateT σ Checked) Bool}
    (h : ∀ c ∈ xs, Completes fault p (f c)) : Completes fault p (xs.anyM f) := by
  induction xs with
  | nil => exact pure false
  | cons c xs ih =>
    rw [List.anyM]
    refine (h c (by simp)).bind fun found => ?_
    cases found with
    | true => exact pure true
    | false => exact ih fun d hd => h d (by simp [hd])

theorem mapM {xs : List γ} {f : γ → ExceptT ε (StateT σ Checked) β}
    (h : ∀ c ∈ xs, Completes fault p (f c)) : Completes fault p (xs.mapM f) := by
  induction xs with
  | nil => exact pure []
  | cons c xs ih =>
    rw [List.mapM_cons]
    exact (h c (by simp)).bind fun b => (ih fun d hd => h d (by simp [hd])).bind fun bs => pure (b :: bs)

theorem adapt {ε' : Type} {f : ε → ε'} {x : ExceptT ε (StateT σ Checked) β} (h : Completes fault p x) :
    Completes fault p (ExceptT.adapt f x) := by
  intro s hs
  rcases h s hs with ⟨hfault, e, hexec⟩ | ⟨b, s', hexec, hs'⟩
  · exact .inl ⟨hfault, e, by rw [exec_adapt, hexec]; rfl⟩
  · exact .inr ⟨b, s', exec_adapt_eq_ok.mpr hexec, hs'⟩

theorem returns {x : ExceptT ε (StateT σ Checked) β} (h : Completes False p x) {s : σ} (hs : p s) :
    ∃ b s', exec x s = .ok (.ok b, s') ∧ p s' :=
  (h s hs).resolve_left fun hfault => hfault.1

end Completes

/-- What a run from a state with the property does when it comes to an end: an answer meets the
postcondition together with the state, an error is of the given kind. -/
def Ensures (p : σ → Prop) (post : β → σ → Prop) (q : ε → Prop)
    (x : ExceptT ε (StateT σ Checked) β) : Prop :=
  ∀ s r s', p s → exec x s = .ok (r, s') →
    (∀ b, r = .ok b → post b s') ∧ ∀ e, r = .error e → q e

namespace Ensures

variable {p : σ → Prop} {q : ε → Prop}

theorem pure {post : β → σ → Prop} {b : β} (h : ∀ s, p s → post b s) :
    Ensures p post q (Pure.pure b : ExceptT ε (StateT σ Checked) β) := by
  intro s r s' hs hrun
  cases hrun
  exact ⟨fun b' hb => Except.ok.inj hb ▸ h s hs, fun e he => by cases he⟩

theorem lift (c : Checked β) :
    Ensures p (fun b s => c = .ok b ∧ p s) q (liftM c : ExceptT ε (StateT σ Checked) β) := by
  intro s r s' hs hrun
  rw [exec_lift] at hrun
  cases c <;> cases hrun
  exact ⟨fun b hb => ⟨congrArg Except.ok (Except.ok.inj hb), hs⟩, fun e he => by cases he⟩

theorem bind {mid : β → σ → Prop} {post : γ → σ → Prop} {x : ExceptT ε (StateT σ Checked) β}
    {k : β → ExceptT ε (StateT σ Checked) γ} (hx : Ensures p mid q x)
    (hk : ∀ b, Ensures (mid b) post q (k b)) : Ensures p post q (x >>= k) := by
  intro s r s' hs hrun
  rcases exec_bind_eq_ok.mp hrun with ⟨b, t, hb, hrest⟩ | ⟨e, he, rfl⟩
  · exact hk b t r s' ((hx s _ t hs hb).1 b rfl) hrest
  · exact ⟨fun b hb => (by cases hb), fun e' he' => Except.error.inj he' ▸ (hx s _ s' hs he).2 e rfl⟩

theorem weaken {p' : σ → Prop} {post post' : β → σ → Prop} {x : ExceptT ε (StateT σ Checked) β}
    (h : Ensures p post q x) (hp : ∀ s, p' s → p s) (hpost : ∀ b s, post b s → post' b s) :
    Ensures p' post' q x :=
  fun s r s' hs hrun => ⟨fun b hb => hpost b s' ((h s r s' (hp s hs) hrun).1 b hb),
    (h s r s' (hp s hs) hrun).2⟩

theorem left {p' : σ → Prop} {post : β → σ → Prop} {x : ExceptT ε (StateT σ Checked) β}
    (h : Ensures p (fun b s => p' s ∧ post b s) q x) : Ensures p (fun _ => p') q x :=
  h.weaken (fun _ hs => hs) fun _ _ hs => hs.1

theorem and {p' : σ → Prop} {post post' : β → σ → Prop} {x : ExceptT ε (StateT σ Checked) β}
    (h : Ensures p post q x) (h' : Ensures p' post' q x) :
    Ensures (fun s => p s ∧ p' s) (fun b s => post b s ∧ post' b s) q x :=
  fun s r s' hs hrun => ⟨fun b hb => ⟨(h s r s' hs.1 hrun).1 b hb, (h' s r s' hs.2 hrun).1 b hb⟩,
    (h s r s' hs.1 hrun).2⟩

theorem of_fact {fact : Prop} {post : β → σ → Prop} {x : ExceptT ε (StateT σ Checked) β}
    (h : fact → Ensures p post q x) : Ensures (fun s => p s ∧ fact) post q x :=
  fun s r s' hs hrun => h hs.2 s r s' hs.1 hrun

theorem of_exists {ι : Sort*} {pre : ι → σ → Prop} {post : β → σ → Prop}
    {x : ExceptT ε (StateT σ Checked) β} (h : ∀ i, Ensures (pre i) post q x) :
    Ensures (fun s => ∃ i, pre i s) post q x :=
  fun s r s' ⟨i, hs⟩ hrun => h i s r s' hs hrun

theorem forM_suffix (pre : List γ → σ → Prop) {xs : List γ}
    {f : γ → ExceptT ε (StateT σ Checked) Unit}
    (h : ∀ c rest, c :: rest <:+ xs → Ensures (pre (c :: rest)) (fun _ => pre rest) q (f c)) :
    Ensures (pre xs) (fun _ => pre []) q (xs.forM f) := by
  induction xs with
  | nil => exact .pure fun _ hs => hs
  | cons c xs ih =>
    rw [List.forM]
    exact (h c xs List.suffix_rfl).bind fun _ => ih fun d rest hd => h d rest (hd.trans (List.suffix_cons c xs))

theorem discard {post : β → σ → Prop} {p' : σ → Prop} {x : ExceptT ε (StateT σ Checked) β}
    (h : Ensures p post q x) (hpost : ∀ b s, post b s → p' s) :
    Ensures p (fun _ => p') q (Functor.discard x) :=
  h.bind fun b => .pure (hpost b)

theorem map {post : γ → σ → Prop} {f : β → γ} {x : ExceptT ε (StateT σ Checked) β}
    (h : Ensures p (fun b => post (f b)) q x) : Ensures p post q (f <$> x) :=
  h.bind fun _ => .pure fun _ hs => hs

theorem forM {xs : List γ} {f : γ → ExceptT ε (StateT σ Checked) Unit}
    (h : ∀ c ∈ xs, Ensures p (fun _ => p) q (f c)) : Ensures p (fun _ => p) q (xs.forM f) := by
  induction xs with
  | nil => exact .pure fun _ hs => hs
  | cons c xs ih =>
    rw [List.forM]
    exact (h c (by simp)).bind fun _ => ih fun d hd => h d (by simp [hd])

theorem foldlM {P : β → σ → Prop} {xs : List γ} {f : β → γ → ExceptT ε (StateT σ Checked) β} {b : β}
    (h : ∀ b c, Ensures (P b) P q (f b c)) : Ensures (P b) P q (xs.foldlM f b) := by
  induction xs generalizing b with
  | nil => exact .pure fun _ hs => hs
  | cons c xs ih =>
    rw [List.foldlM_cons]
    exact (h b c).bind fun _ => ih

theorem anyM {P : Bool → σ → Prop} {xs : List γ} {f : γ → ExceptT ε (StateT σ Checked) Bool}
    (h : ∀ c, Ensures (P false) P q (f c)) : Ensures (P false) P q (xs.anyM f) := by
  induction xs with
  | nil => exact .pure fun _ hs => hs
  | cons c xs ih =>
    rw [List.anyM]
    refine (h c).bind fun found => ?_
    cases found with
    | true => exact .pure fun _ hs => hs
    | false => exact ih

theorem adapt {ε' : Type} {q' : ε' → Prop} {post : β → σ → Prop} {f : ε → ε'}
    {x : ExceptT ε (StateT σ Checked) β} (h : Ensures p post q x) (hf : ∀ e, q e → q' (f e)) :
    Ensures p post q' (ExceptT.adapt f x) := by
  intro s r s' hs hrun
  rw [exec_adapt] at hrun
  cases hx : exec x s with
  | error fault =>
    rw [hx] at hrun
    cases hrun
  | ok out =>
    obtain ⟨r', t⟩ := out
    rw [hx] at hrun
    cases hrun
    obtain ⟨hpost, hq⟩ := h s r' t hs hx
    cases r' with
    | ok b => exact ⟨fun b' hb => Except.ok.inj hb ▸ hpost b rfl, fun e he => by cases he⟩
    | error e => exact ⟨fun b hb => (by cases hb), fun e' he => Except.error.inj he ▸ hf e (hq e rfl)⟩

end Ensures

theorem Silent.ensures {p : σ → Prop} {x : ExceptT ε (StateT σ Checked) β} (h : Silent x) :
    Ensures p (fun _ => p) (fun _ => True) x := by
  intro s r s' hs hrun
  obtain rfl := h s r s' hrun
  exact ⟨fun _ _ => hs, fun _ _ => trivial⟩

/-- What a run from a state with the property leaves when it comes to an end: a state with the property
`left`, and on an answer one that meets the postcondition as well. -/
def Leaves (p : σ → Prop) (post : β → σ → Prop) (left : σ → Prop)
    (x : ExceptT ε (StateT σ Checked) β) : Prop :=
  ∀ s r s', p s → exec x s = .ok (r, s') → left s' ∧ ∀ b, r = .ok b → post b s'

namespace Leaves

variable {p left : σ → Prop}

theorem pure {post : β → σ → Prop} {b : β} (hleft : ∀ s, p s → left s) (h : ∀ s, p s → post b s) :
    Leaves p post left (Pure.pure b : ExceptT ε (StateT σ Checked) β) := by
  intro s r s' hs hrun
  cases hrun
  exact ⟨hleft s hs, fun b' hb => Except.ok.inj hb ▸ h s hs⟩

theorem throw {post : β → σ → Prop} {e : ε} (hleft : ∀ s, p s → left s) :
    Leaves p post left (MonadExcept.throw e : ExceptT ε (StateT σ Checked) β) := by
  intro s r s' hs hrun
  cases hrun
  exact ⟨hleft s hs, fun b hb => by cases hb⟩

theorem bind {m : β → σ → Prop} {post : γ → σ → Prop} {x : ExceptT ε (StateT σ Checked) β}
    {k : β → ExceptT ε (StateT σ Checked) γ} (hx : Leaves p m left x)
    (hk : ∀ b, Leaves (m b) post left (k b)) : Leaves p post left (x >>= k) := by
  intro s r s' hs hrun
  rcases exec_bind_eq_ok.mp hrun with ⟨b, t, hb, hrest⟩ | ⟨e, he, rfl⟩
  · exact hk b t r s' ((hx s _ t hs hb).2 b rfl) hrest
  · exact ⟨(hx s _ s' hs he).1, fun b hb => by cases hb⟩

theorem weaken {left' : σ → Prop} {post post' : β → σ → Prop}
    {x : ExceptT ε (StateT σ Checked) β} (h : Leaves p post left x)
    (hpost : ∀ b s, post b s → post' b s) (hleft : ∀ s, left s → left' s) :
    Leaves p post' left' x :=
  fun s r s' hs hrun => (h s r s' hs hrun).imp (hleft s') fun hb b hr => hpost b s' (hb b hr)

theorem of_fact {fact : Prop} {post : β → σ → Prop} {x : ExceptT ε (StateT σ Checked) β}
    (h : fact → Leaves p post left x) : Leaves (fun s => p s ∧ fact) post left x :=
  fun s r s' hs hrun => h hs.2 s r s' hs.1 hrun

theorem adapt {ε' : Type} {post : β → σ → Prop} {f : ε → ε'} {x : ExceptT ε (StateT σ Checked) β}
    (h : Leaves p post left x) : Leaves p post left (ExceptT.adapt f x) := by
  intro s r s' hs hrun
  rw [exec_adapt] at hrun
  obtain ⟨⟨r', t⟩, hx, hout⟩ := except_map_eq_ok.mp hrun
  cases hout
  refine (h s r' t hs hx).imp_right fun hb b hr => hb b ?_
  cases r' <;> cases hr
  rfl

theorem map {post : γ → σ → Prop} {f : β → γ} {x : ExceptT ε (StateT σ Checked) β}
    (h : Leaves p (fun b => post (f b)) left x) : Leaves p post left (f <$> x) := by
  intro s r s' hs hrun
  obtain ⟨r₀, hx, rfl⟩ := exec_map_cases hrun
  refine (h s r₀ s' hs hx).imp_right fun hb c hc => ?_
  obtain ⟨b, rfl, rfl⟩ := except_map_eq_ok.mp hc
  exact hb b rfl

end Leaves

theorem Silent.leaves {p left : σ → Prop} {x : ExceptT ε (StateT σ Checked) β} (h : Silent x)
    (hleft : ∀ s, p s → left s) : Leaves p (fun _ => p) left x := by
  intro s r s' hs hrun
  obtain rfl := h s r s' hrun
  exact ⟨hleft s' hs, fun _ _ => hs⟩

theorem Stays.leaves {p : σ → Prop} {q : ε → Prop} {x : ExceptT ε (StateT σ Checked) β}
    (h : Stays p q x) : Leaves p (fun _ => p) p x :=
  fun s r s' hs hrun => ⟨(h s r s' hs hrun).1, fun _ _ => (h s r s' hs hrun).1⟩

theorem Leaves.stays {p : σ → Prop} {post : β → σ → Prop} {x : ExceptT ε (StateT σ Checked) β}
    (h : Leaves p post p x) : Stays p (fun _ => True) x :=
  fun s r s' hs hrun => ⟨(h s r s' hs hrun).1, fun _ _ => trivial⟩

/-- No fault stops a run from a state with the property, and an answer that is no error meets the
postcondition together with the state. -/
def Ends (p : σ → Prop) (post : β → σ → Prop) (x : ExceptT ε (StateT σ Checked) β) : Prop :=
  ∀ s, p s → ∃ r s', exec x s = .ok (r, s') ∧ ∀ b, r = .ok b → post b s'

namespace Ends

variable {p : σ → Prop}

theorem of_done {post : β → σ → Prop} {x : ExceptT ε (StateT σ Checked) β}
    (hend : ∀ s, p s → ∃ r s', exec x s = .ok (r, s'))
    (hdone : ∀ s b s', p s → exec x s = .ok (.ok b, s') → post b s') : Ends p post x := by
  intro s hs
  obtain ⟨r, s', hexec⟩ := hend s hs
  exact ⟨r, s', hexec, fun b hb => hdone s b s' hs (hb ▸ hexec)⟩

theorem pure {post : β → σ → Prop} {b : β} (h : ∀ s, p s → post b s) :
    Ends p post (Pure.pure b : ExceptT ε (StateT σ Checked) β) :=
  fun s hs => ⟨.ok b, s, rfl, fun _ hb => Except.ok.inj hb ▸ h s hs⟩

theorem throw {post : β → σ → Prop} (e : ε) :
    Ends p post (MonadExcept.throw e : ExceptT ε (StateT σ Checked) β) :=
  fun s _ => ⟨.error e, s, rfl, fun _ hb => by cases hb⟩

theorem lift {q : β → Prop} {c : Checked β} (h : ∃ b, c = .ok b ∧ q b) :
    Ends p (fun b s => p s ∧ q b) (liftM c : ExceptT ε (StateT σ Checked) β) := by
  obtain ⟨b, rfl, hb⟩ := h
  exact fun s hs => ⟨.ok b, s, rfl, fun _ hc => Except.ok.inj hc ▸ ⟨hs, hb⟩⟩

theorem bind {mid : β → σ → Prop} {post : γ → σ → Prop} {x : ExceptT ε (StateT σ Checked) β}
    {k : β → ExceptT ε (StateT σ Checked) γ} (hx : Ends p mid x) (hk : ∀ b, Ends (mid b) post (k b)) :
    Ends p post (x >>= k) := by
  intro s hs
  obtain ⟨r, t, hexec, hmid⟩ := hx s hs
  cases r with
  | error e => exact ⟨.error e, t, exec_bind_error hexec k, fun _ hc => by cases hc⟩
  | ok b =>
    rw [exec_bind_ok hexec]
    exact hk b t (hmid b rfl)

theorem weaken {p' : σ → Prop} {post post' : β → σ → Prop} {x : ExceptT ε (StateT σ Checked) β}
    (h : Ends p post x) (hp : ∀ s, p' s → p s) (hpost : ∀ b s, post b s → post' b s) : Ends p' post' x :=
  fun s hs => (h s (hp s hs)).imp fun _ hr => hr.imp fun s' hs' =>
    ⟨hs'.1, fun b hb => hpost b s' (hs'.2 b hb)⟩

theorem left {p' : σ → Prop} {post : β → σ → Prop} {x : ExceptT ε (StateT σ Checked) β}
    (h : Ends p (fun b s => p' s ∧ post b s) x) : Ends p (fun _ => p') x :=
  h.weaken (fun _ hs => hs) fun _ _ hs => hs.1

theorem of_fact {fact : Prop} {post : β → σ → Prop} {x : ExceptT ε (StateT σ Checked) β}
    (h : fact → Ends p post x) : Ends (fun s => p s ∧ fact) post x :=
  fun s hs => h hs.2 s hs.1

theorem given {p' : σ → Prop} {fact : Prop} {post : β → σ → Prop} {x : ExceptT ε (StateT σ Checked) β}
    (hp : ∀ s, p' s → p s ∧ fact) (h : fact → Ends p post x) : Ends p' post x :=
  (of_fact h).weaken hp fun _ _ hs => hs

theorem discard {post : β → σ → Prop} {p' : σ → Prop} {x : ExceptT ε (StateT σ Checked) β}
    (h : Ends p post x) (hpost : ∀ b s, post b s → p' s) :
    Ends p (fun _ => p') (Functor.discard x) :=
  h.bind fun b => .pure (hpost b)

theorem map {post : γ → σ → Prop} {f : β → γ} {x : ExceptT ε (StateT σ Checked) β}
    (h : Ends p (fun b => post (f b)) x) : Ends p post (f <$> x) :=
  h.bind fun _ => .pure fun _ hs => hs

theorem forM {xs : List γ} {f : γ → ExceptT ε (StateT σ Checked) Unit}
    (h : ∀ c ∈ xs, Ends p (fun _ => p) (f c)) : Ends p (fun _ => p) (xs.forM f) := by
  induction xs with
  | nil => exact .pure fun _ hs => hs
  | cons c xs ih =>
    rw [List.forM]
    exact (h c List.mem_cons_self).bind fun _ => ih fun d hd => h d (List.mem_cons_of_mem c hd)

theorem foldlM {xs : List γ} {f : β → γ → ExceptT ε (StateT σ Checked) β} {b : β}
    (h : ∀ b c, Ends p (fun _ => p) (f b c)) : Ends p (fun _ => p) (xs.foldlM f b) := by
  induction xs generalizing b with
  | nil => exact .pure fun _ hs => hs
  | cons c xs ih =>
    rw [List.foldlM_cons]
    exact (h b c).bind fun _ => ih

theorem mapM {xs : List γ} {f : γ → ExceptT ε (StateT σ Checked) β}
    (h : ∀ c, Ends p (fun _ => p) (f c)) : Ends p (fun _ => p) (xs.mapM f) := by
  induction xs with
  | nil => exact .pure fun _ hs => hs
  | cons c xs ih =>
    rw [List.mapM_cons]
    exact (h c).bind fun _ => ih.bind fun _ => .pure fun _ hs => hs

theorem anyM {xs : List γ} {f : γ → ExceptT ε (StateT σ Checked) Bool}
    (h : ∀ c, Ends p (fun _ => p) (f c)) : Ends p (fun _ => p) (xs.anyM f) := by
  induction xs with
  | nil => exact .pure fun _ hs => hs
  | cons c xs ih =>
    rw [List.anyM]
    refine (h c).bind fun found => ?_
    cases found with
    | true => exact .pure fun _ hs => hs
    | false => exact ih

theorem adapt {post : β → σ → Prop} {f : ε → ε'} {x : ExceptT ε (StateT σ Checked) β}
    (h : Ends p post x) : Ends p post (ExceptT.adapt f x) := by
  intro s hs
  obtain ⟨r, t, hexec, hpost⟩ := h s hs
  refine ⟨r.mapError f, t, by rw [exec_adapt, hexec]; rfl, fun b hb => hpost b ?_⟩
  cases r <;> cases hb
  rfl

end Ends

end LowPrecision
