import LowPrecision.Proofs.Markup.Reads
import LowPrecision.Proofs.Pipeline.Groups
import LowPrecision.Proofs.Quantization.Totality

namespace LowPrecision

variable {α β γ ε : Type}

theorem foldlM_answers {P : γ → Prop} {step : γ → β → Checked γ}
    (h : ∀ c b, P c → ∃ c', step c b = .ok c' ∧ P c') (bs : List β) {c : γ} (hc : P c) :
    ∃ c', bs.foldlM step c = .ok c' ∧ P c' := by
  induction bs generalizing c with
  | nil => exact ⟨c, rfl, hc⟩
  | cons b bs ih =>
    obtain ⟨c₁, hstep, hc₁⟩ := h c b hc
    rw [List.foldlM_cons, hstep]
    exact ih hc₁

def Attempt.Answers (x : Attempt ε β) : Prop := ∃ r, x.run = .ok r

namespace Attempt.Answers

theorem pure (b : β) : Answers (Pure.pure b : Attempt ε β) := ⟨.ok b, rfl⟩

theorem throw (e : ε) : Answers (MonadExcept.throw e : Attempt ε β) := ⟨.error e, rfl⟩

theorem bind {x : Attempt ε β} {k : β → Attempt ε γ} (hx : Answers x) (hk : ∀ b, Answers (k b)) :
    Answers (x >>= k) := by
  obtain ⟨r, hr⟩ := hx
  rw [Answers, ExceptT.run_bind, hr]
  cases r with
  | error e => exact ⟨.error e, rfl⟩
  | ok b => exact hk b

theorem mapM {f : β → Attempt ε γ} (h : ∀ b, Answers (f b)) (bs : List β) : Answers (bs.mapM f) := by
  induction bs with
  | nil => exact pure []
  | cons b bs ih =>
    rw [List.mapM_cons]
    exact bind (h b) fun _ => bind ih fun _ => pure _

theorem anyM {f : β → Attempt ε Bool} (h : ∀ b, Answers (f b)) (bs : List β) : Answers (bs.anyM f) := by
  induction bs with
  | nil => exact pure false
  | cons b bs ih =>
    rw [List.anyM]
    refine bind (h b) fun found => ?_
    cases found with
    | true => exact pure true
    | false => exact ih

end Attempt.Answers

namespace Markup

open AttributeStore

variable {g : Graph α} {s : AttributeStore α} {id : NodeId} {n : Node α}

theorem propagateNode_ok (h : s.Grouped) : ∃ s', propagateNode g id n s = .ok s' ∧ s'.Grouped := by
  suffices hok : ∃ s', propagateNode g id n s = .ok s' by
    obtain ⟨s', hs'⟩ := hok
    exact ⟨s', hs', (propagateNode_visited h hs').assigns.grouped⟩
  rw [propagateNode]
  split
  · exact ⟨_, rfl⟩
  split
  · split
    · exact ⟨s, rfl⟩
    · next first rest hgroups =>
      have hbounded : ∀ group ∈ first :: rest, group < s.precisionCells.size := by
        intro group hgroup
        rw [← hgroups] at hgroup
        obtain ⟨slot, -, hslot⟩ := List.mem_filterMap.mp hgroup
        exact h.bounded slot group hslot
      obtain ⟨c, hmerge⟩ : ∃ c, rest.foldlM (fun (c : GroupId × AttributeStore α) group =>
          c.2.mergePrecisions c.1 group) (first, s) = .ok c := by
        clear hgroups
        induction rest generalizing first s with
        | nil => exact ⟨_, rfl⟩
        | cons group rest ih =>
          have hfirst := hbounded first (by simp)
          have hgroup := hbounded group (by simp)
          obtain ⟨⟨root, cells⟩, hcells⟩ :=
            SharedCells.merge_ok h.linked hfirst hgroup PrecisionSet.inter
          have hstep : s.mergePrecisions first group =
              .ok (root, { s with precisionCells := cells }) := by
            rw [mergePrecisions, hcells]
            rfl
          obtain ⟨hassigns, hlt, -, -⟩ := Assigns.merge id h hfirst hgroup hstep
          rw [List.foldlM_cons, hstep]
          refine ih hassigns.grouped root fun other hother => ?_
          rcases List.mem_cons.mp hother with rfl | hother
          · exact hlt
          · exact Nat.lt_of_lt_of_le (hbounded other (by simp [hother])) hassigns.narrows.size
      exact ⟨_, except_bind_eq_ok.mpr ⟨c, hmerge, rfl⟩⟩
  · exact ⟨_, rfl⟩

theorem visits_ok (h : s.Grouped) (order : List NodeId) :
    ∃ s', order.foldlM (visit g) s = .ok s' ∧ s'.Grouped := by
  refine foldlM_answers (fun s v hs => ?_) order h
  rw [visit]
  split
  · exact propagateNode_ok hs
  · exact ⟨s, rfl, hs⟩

theorem grouped_clear (s : AttributeStore α) : (s.clear .precisions).Grouped := by
  refine ⟨SharedCells.linked_empty, fun slot group hgroup => ?_⟩
  rw [precisionGroup?_eq_some, get?_clear, if_pos rfl] at hgroup
  cases hgroup

variable [Scalar α]

def Joinable (c : GroupId × AttributeStore α) : Prop :=
  c.2.Spanned ∧ c.1 < c.2.intervalCells.size

theorem joinMember_ok {c : GroupId × AttributeStore α} (h : Joinable c) (member : NodeId) :
    ∃ c', joinMember c member = .ok c' ∧ Joinable c' := by
  obtain ⟨hspanned, hlt⟩ := h
  rw [joinMember]
  split
  · next existing hexisting =>
    have hbounded := hspanned.bounded member existing hexisting
    obtain ⟨⟨root, cells⟩, hcells⟩ :=
      SharedCells.merge_ok hspanned.linked hbounded hlt SharedInterval.widen
    have hmerges := SharedCells.merges hspanned.linked hbounded hlt hcells
    exact ⟨(root, { c.2 with intervalCells := cells }), by rw [mergeIntervals, hcells]; rfl,
      hspanned.of_cells hmerges.linked (Nat.le_of_eq hmerges.size.symm), hmerges.bounded⟩
  · exact ⟨_, rfl, hspanned, hlt⟩

theorem shareInterval_ok (h : s.Spanned) (interval : SharedInterval α) (members : List NodeId) :
    ∃ s', shareInterval interval members s = .ok s' ∧ s'.Spanned := by
  have hnew : Joinable (s.newInterval interval) := by
    have hsize := SharedCells.size_insert s.intervalCells interval
    refine ⟨h.of_cells (SharedCells.linked_insert h.linked interval) ?_, ?_⟩
    · exact Nat.le_of_lt (Nat.lt_of_lt_of_eq (Nat.lt_succ_self _) hsize.symm)
    · change s.intervalCells.size < (s.intervalCells.insert interval).2.size
      rw [hsize]
      exact Nat.lt_succ_self _
  obtain ⟨c, hjoin, -⟩ := foldlM_answers (fun c member hc => joinMember_ok hc member) members hnew
  have hrun : shareInterval interval members s = .ok (members.foldl (addMember c.1) c.2) := by
    rw [shareInterval_eq, hjoin]
    rfl
  exact ⟨_, hrun, shareInterval_spanned h hrun⟩

theorem alignIntervals_ok (g : Graph α) : ∃ g', alignIntervals g = .ok g' := by
  have hregion : ∀ s concat, s.Spanned → ∃ s', alignRegion g s concat = .ok s' ∧ s'.Spanned := by
    intro s concat hs
    rw [alignRegion]
    split
    · exact shareInterval_ok hs _ _
    · exact ⟨s, rfl, hs⟩
  obtain ⟨s, hfold, -⟩ := foldlM_answers hregion (g.ofKind .concat) (.cleared g.attributes)
  rw [alignIntervals_eq, hfold]
  exact ⟨_, rfl⟩

theorem ofInterval_answers (hordered : OrderedGrids α) {type : ElementType} {levels : Nat}
    {bounds : α × α} (hbounds : Grid.bounds type levels = .ok bounds) (low high : α) :
    Attempt.Answers (liftM (ScaleZeroPoint.ofInterval low high bounds.1 bounds.2) :
      Attempt ε (ScaleZeroPoint α)) := by
  obtain ⟨p, hp⟩ := ofInterval_ok (hordered type levels bounds.1 bounds.2 hbounds).2 low high
  rw [hp]
  exact ⟨.ok p, rfl⟩

theorem select_answers (hordered : OrderedGrids α) (lows highs : List α) (levels : Nat)
    (allowed : PrecisionSet) : (Grid.select lows highs levels allowed).Answers := by
  rw [Grid.select]
  split
  · exact .pure none
  next type htype =>
  cases hbounds : Grid.bounds (α := α) type levels with
  | error e => exact ⟨.error e, rfl⟩
  | ok bounds =>
    refine (Attempt.Answers.anyM (fun x => ?_) (lows.zip highs)).bind fun _ => .pure _
    exact (ofInterval_answers hordered hbounds x.1 x.2).bind fun p => .pure _

theorem memberParams_answers (hordered : OrderedGrids α) (g : Graph α) (interval : SharedInterval α)
    (id : NodeId) : (memberParams g interval id).Answers := by
  have hselect := select_answers hordered [interval.low] [interval.high] interval.levels
    (allowedPrecisions g id)
  rw [memberParams]
  obtain ⟨r, hr⟩ := hselect
  rw [Attempt.Answers, ExceptT.run_bind]
  change ∃ r', (Except.map (Except.mapError _) (Grid.select _ _ _ _).run >>= _) = .ok r'
  rw [hr]
  rcases r with e | _ | grid
  · exact ⟨_, rfl⟩
  · exact ⟨_, rfl⟩
  · have hbounds := bounds_of_select hr
    exact (ofInterval_answers hordered hbounds interval.low interval.high).bind fun p => .pure _

theorem checkGroup_answers (hordered : OrderedGrids α) (g : Graph α) (group : AlignedGroup) :
    (checkGroup g group).Answers := by
  rw [checkGroup]
  split
  · exact .pure ()
  next interval hinterval =>
  have hparams := Attempt.Answers.mapM (memberParams_answers hordered g interval)
    group.fakeQuantizes
  dsimp only
  split
  on_goal 1 => refine .bind (.throw _) fun _ => ?_
  all_goals
    apply hparams.bind
    intro params
    split
    · exact .pure ()
    · split
      · exact .throw _
      · exact .pure ()

theorem alignParameters_ok (hordered : OrderedGrids α) (g : Graph α) :
    ∃ g', alignParameters g = .ok g' := by
  have hmark : ∀ k s group, ∃ s', markGroup (α := α) k s group = .ok s' ∧ True := by
    intro k s group
    obtain ⟨conflict, hconflict⟩ := checkGroup_answers hordered k group
    rw [markGroup, hconflict]
    rcases conflict with reason | ⟨⟩ <;> exact ⟨_, rfl, trivial⟩
  obtain ⟨s, hfold, -⟩ := foldlM_answers (P := fun _ => True) (fun s group _ => hmark _ s group)
    (alignedGroups { g with attributes := g.attributes.clear .alignment }) trivial
  rw [alignParameters_eq, hfold]
  exact ⟨_, rfl⟩

end Markup

end LowPrecision
