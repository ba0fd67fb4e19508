import LowPrecision.Proofs.Quantization.Channels
import LowPrecision.Proofs.Quantization.Layouts
import LowPrecision.Rewrite.Concat

namespace LowPrecision

namespace ChannelParams

variable {α : Type}

def Balanced (p : ChannelParams α) : Prop := p.scales.length = p.zeroPoints.length

def value (p : ChannelParams Rat) (c : Nat) (x : Rat) : Rat :=
  (x - channelValue p.zeroPoints c) * channelValue p.scales c

theorem ofList?_eq_some [Scalar α] {params : List (ScaleZeroPoint α)} {p : ChannelParams α}
    (h : ofList? params = some p) : p.Balanced ∧ p.scales ≠ [] := by
  cases params with
  | nil => cases h
  | cons first rest =>
    have hcases : (if (first :: rest).all (·.same first) then
        some (single first.scale first.zeroPoint) else
        some ⟨(first :: rest).map (·.scale), (first :: rest).map (·.zeroPoint)⟩) = some p := h
    split at hcases <;> cases hcases <;> simp [Balanced, single]

structure Only (scale zeroPoint : α → Prop) (p : ChannelParams α) : Prop where
  scales : ∀ s ∈ p.scales, scale s
  zeroPoints : ∀ z ∈ p.zeroPoints, zeroPoint z

theorem Only.append {scale zeroPoint : α → Prop} {p q : ChannelParams α}
    (hp : p.Only scale zeroPoint) (hq : q.Only scale zeroPoint) :
    (p.append q).Only scale zeroPoint :=
  ⟨fun s hs => (List.mem_append.mp hs).elim (hp.scales s) (hq.scales s),
    fun z hz => (List.mem_append.mp hz).elim (hp.zeroPoints z) (hq.zeroPoints z)⟩

theorem only_of_ofList? [Scalar α] {scale zeroPoint : α → Prop} {params : List (ScaleZeroPoint α)}
    {p : ChannelParams α} (h : ofList? params = some p)
    (hparams : ∀ q ∈ params, scale q.scale ∧ zeroPoint q.zeroPoint) : p.Only scale zeroPoint := by
  cases params with
  | nil => cases h
  | cons first rest =>
    rw [ofList?] at h
    split at h <;> cases h
    · obtain ⟨hscale, hzero⟩ := hparams first List.mem_cons_self
      refine ⟨fun s hs => ?_, fun z hz => ?_⟩
      · rwa [List.mem_singleton.mp hs]
      · rwa [List.mem_singleton.mp hz]
    · refine ⟨fun s hs => ?_, fun z hz => ?_⟩
      · obtain ⟨q, hq, rfl⟩ := List.mem_map.mp hs
        exact (hparams q hq).1
      · obtain ⟨q, hq, rfl⟩ := List.mem_map.mp hz
        exact (hparams q hq).2

theorem sameValues_iff {xs ys : List Rat} : sameValues xs ys = true ↔ xs = ys := by
  induction xs generalizing ys with
  | nil => cases ys <;> simp [sameValues]
  | cons x xs ih =>
    cases ys with
    | nil => simp [sameValues]
    | cons y ys =>
      rw [List.cons.injEq, ← ih]
      simp only [sameValues, List.length_cons, List.zip_cons_cons, List.all_cons, Bool.and_eq_true,
        beq_iff_eq, Nat.add_right_cancel_iff]
      have hxy : Arithmetic.equal x y = true ↔ x = y := decide_eq_true_iff
      rw [hxy]
      constructor
      · rintro ⟨hlength, he, hall⟩
        exact ⟨he, hlength, hall⟩
      · rintro ⟨he, hlength, hall⟩
        exact ⟨hlength, he, hall⟩

theorem same_iff {p q : ChannelParams Rat} : p.same q = true ↔ p = q := by
  rw [same, Bool.and_eq_true, sameValues_iff, sameValues_iff]
  cases p
  cases q
  simp

theorem value_of_isSingle {p : ChannelParams Rat} (hp : p.Balanced) (h : p.isSingle = true)
    (c c' : Nat) (x : Rat) : p.value c x = p.value c' x := by
  have hscales : p.scales.length = 1 := by simpa [isSingle] using h
  have hzeroPoints : p.zeroPoints.length = 1 := hp ▸ hscales
  obtain ⟨s, hs⟩ := List.length_eq_one_iff.mp hscales
  obtain ⟨z, hz⟩ := List.length_eq_one_iff.mp hzeroPoints
  cases c <;> cases c' <;> simp [value, channelValue, hs, hz]

theorem expand_cases {p piece : ChannelParams α} {channels : Nat}
    (h : p.expand channels = .ok (some piece)) :
    (∃ s z, p = single s z ∧
        piece = ⟨List.replicate channels s, List.replicate channels z⟩) ∨
      piece = p ∧ p.scales.length = channels := by
  rw [expand] at h
  split at h
  · next s z hs hz =>
    obtain ⟨scales, hscales, h⟩ := except_bind_eq_ok.mp h
    obtain ⟨zeroPoints, hzeroPoints, h⟩ := except_bind_eq_ok.mp h
    obtain ⟨-, -, hscales⟩ := except_bind_eq_ok.mp hscales
    obtain ⟨-, -, hzeroPoints⟩ := except_bind_eq_ok.mp hzeroPoints
    cases hscales
    cases hzeroPoints
    cases h
    refine .inl ⟨s, z, ?_, rfl⟩
    cases p
    cases hs
    cases hz
    rfl
  · split at h <;> cases h
    next hlength => exact .inr ⟨rfl, hlength⟩

theorem balanced_of_expand {p piece : ChannelParams α} {channels : Nat} (hp : p.Balanced)
    (h : p.expand channels = .ok (some piece)) :
    piece.Balanced ∧ piece.scales.length = channels := by
  rcases expand_cases h with ⟨s, z, -, rfl⟩ | ⟨rfl, hlength⟩
  · simp [Balanced]
  · exact ⟨hp, hlength⟩

theorem Balanced.append {p q : ChannelParams α} (hp : p.Balanced) (hq : q.Balanced) :
    (p.append q).Balanced := by
  rw [Balanced, ChannelParams.append, List.length_append, List.length_append, hp, hq]

theorem expand_eq_ok {p piece : ChannelParams Rat} {channels : Nat} (hp : p.Balanced)
    (h : p.expand channels = .ok (some piece)) :
    piece.Balanced ∧ piece.scales.length = channels ∧
      ∀ c < channels, ∀ x, piece.value c x = p.value c x := by
  obtain ⟨hbalanced, hlength⟩ := balanced_of_expand hp h
  refine ⟨hbalanced, hlength, fun c hc x => ?_⟩
  rcases expand_cases h with ⟨s, z, rfl, rfl⟩ | ⟨rfl, -⟩
  · have hreplicate : ∀ v : Rat, channelValue (List.replicate channels v) c = v := by
      intro v
      simp [channelValue, List.getD_eq_getElem?_getD, hc]
    have hone : ∀ v : Rat, channelValue [v] c = v := by
      intro v
      cases c <;> simp [channelValue]
    simp only [value, single, hreplicate, hone]
  · rfl

theorem channelValue_append {xs ys : List Rat} {c : Nat} (hc : c < (xs ++ ys).length) :
    channelValue (xs ++ ys) c =
      if c < xs.length then channelValue xs c else channelValue ys (c - xs.length) := by
  have hget : ∀ zs : List Rat, ∀ k < zs.length, channelValue zs k = zs.getD k 0 := by
    intro zs k hk
    simp [channelValue, List.getD_eq_getElem?_getD, hk]
  rw [hget _ _ hc]
  rw [List.length_append] at hc
  split
  · next hlt =>
    rw [hget _ _ hlt, List.getD_eq_getElem?_getD, List.getElem?_append_left hlt,
      List.getD_eq_getElem?_getD]
  · next hge =>
    rw [hget _ _ (by omega), List.getD_eq_getElem?_getD, List.getElem?_append_right (by omega),
      List.getD_eq_getElem?_getD]

theorem value_append {p q : ChannelParams Rat} {c : Nat} (hp : p.Balanced) (hq : q.Balanced)
    (hc : c < (p.append q).scales.length) (x : Rat) :
    (p.append q).value c x =
      if c < p.scales.length then p.value c x else q.value (c - p.scales.length) x := by
  have hscales : c < (p.scales ++ q.scales).length := hc
  have hzeroPoints : c < (p.zeroPoints ++ q.zeroPoints).length := by
    rw [List.length_append, ← hp, ← hq, ← List.length_append]
    exact hscales
  simp only [value, append, channelValue_append hscales, channelValue_append hzeroPoints, ← hp.symm]
  rw [← hp]
  split <;> rfl

end ChannelParams

namespace ConcatPlan

theorem eq_of_keys {β γ : Type} {xs ys : List (β × γ)} (hkeys : xs.map Prod.fst = ys.map Prod.fst)
    (h : ∀ x ∈ xs, ∀ y ∈ ys, x.1 = y.1 → x.2 = y.2) : xs = ys := by
  induction xs generalizing ys with
  | nil => exact (List.map_eq_nil_iff.mp hkeys.symm).symm
  | cons x xs ih =>
    cases ys with
    | nil => cases hkeys
    | cons y ys =>
      obtain ⟨hkey, hkeys⟩ := List.cons.inj hkeys
      have hhead : x.2 = y.2 := h x List.mem_cons_self y List.mem_cons_self hkey
      have htail : xs = ys := ih hkeys fun x' hx y' hy =>
        h x' (List.mem_cons_of_mem x hx) y' (List.mem_cons_of_mem y hy)
      rw [Prod.ext hkey hhead, htail]

section Derivation

variable {α : Type} [Arithmetic α] {g : Graph α} {known : List (NodeId × ChannelParams α)}
  {id : NodeId} {p : ChannelParams α} {axis : Nat}

/-- The parameters of a node are those of the boundary, are joined by a concatenation, or are
passed on by the first input. -/
inductive Derives (g : Graph α) (known : List (NodeId × ChannelParams α)) :
    NodeId → ChannelParams α → Prop
  | known {id b : NodeId} {p : ChannelParams α} (h : known.find? (·.1 = id) = some (b, p)) :
      Derives g known id p
  | joined {id : NodeId} {n : Node α} {axis : Nat} {inputs : List (Slot × ChannelParams α)}
      {p : ChannelParams α} (hknown : known.find? (·.1 = id) = none) (hn : g.node? id = some n)
      (hop : n.op = .concat axis) (hinputs : inputs.map Prod.fst = n.inputs)
      (h : ∀ input ∈ inputs, Derives g known input.1.node input.2)
      (hjoin : joinParams g axis inputs = .ok (some p)) : Derives g known id p
  | passed {id : NodeId} {n : Node α} {s : Slot} {p : ChannelParams α}
      (hknown : known.find? (·.1 = id) = none) (hn : g.node? id = some n)
      (hop : ∀ axis, n.op ≠ .concat axis) (hinput : n.input? 0 = some s)
      (h : Derives g known s.node p) : Derives g known id p

omit [Arithmetic α] in
theorem inputParams_eq_ok {of : NodeId → Checked (Option (ChannelParams α))} {slots : List Slot}
    {inputs : List (Slot × ChannelParams α)} (h : inputParams of slots = .ok (some inputs)) :
    inputs.map Prod.fst = slots ∧ ∀ input ∈ inputs, of input.1.node = .ok (some input.2) := by
  induction slots generalizing inputs with
  | nil =>
    cases h
    simp
  | cons s slots ih =>
    obtain ⟨found, hfound, h⟩ := except_bind_eq_ok.mp h
    cases found with
    | none => cases h
    | some p =>
      obtain ⟨rest, hrest, h⟩ := except_bind_eq_ok.mp h
      cases rest with
      | none => cases h
      | some rest =>
        cases h
        obtain ⟨hslots, hparams⟩ := ih hrest
        refine ⟨by simp [hslots], fun input hinput => ?_⟩
        rcases List.mem_cons.mp hinput with rfl | hinput
        · exact hfound
        · exact hparams input hinput

theorem paramsOf_eq_ok {depth : Nat} (h : paramsOf g known (depth + 1) id = .ok (some p)) :
    (∃ b, known.find? (·.1 = id) = some (b, p)) ∨
      known.find? (·.1 = id) = none ∧ ∃ n, g.node? id = some n ∧
        ((∃ axis inputs, n.op = .concat axis ∧ inputs.map Prod.fst = n.inputs ∧
            (∀ input ∈ inputs, paramsOf g known depth input.1.node = .ok (some input.2)) ∧
            joinParams g axis inputs = .ok (some p)) ∨
          (∀ axis, n.op ≠ .concat axis) ∧ ∃ s, n.input? 0 = some s ∧
            paramsOf g known depth s.node = .ok (some p)) := by
  rw [paramsOf] at h
  split at h
  · next b p' hknown =>
    cases h
    exact .inl ⟨b, hknown⟩
  · cases h
  · next n hknown hn =>
    refine .inr ⟨hknown, n, hn, ?_⟩
    split at h
    · next axis hop =>
      obtain ⟨found, hfound, h⟩ := except_bind_eq_ok.mp h
      cases found with
      | none => cases h
      | some inputs =>
        obtain ⟨hslots, hparams⟩ := inputParams_eq_ok hfound
        exact .inl ⟨axis, inputs, hop, hslots, hparams, h⟩
    · next hop =>
      refine .inr ⟨hop, ?_⟩
      split at h
      · next s hs => exact ⟨s, hs, h⟩
      · cases h

theorem derives_of_paramsOf {depth : Nat} (h : paramsOf g known depth id = .ok (some p)) :
    Derives g known id p := by
  induction depth generalizing id p with
  | zero => cases h
  | succ depth ih =>
    rcases paramsOf_eq_ok h with ⟨b, hknown⟩ | ⟨hknown, n, hn, hcase⟩
    · exact .known hknown
    · rcases hcase with ⟨axis, inputs, hop, hslots, hparams, hjoin⟩ | ⟨hop, s, hs, hparams⟩
      · exact .joined hknown hn hop hslots (fun input hinput => ih (hparams input hinput)) hjoin
      · exact .passed hknown hn hop hs (ih hparams)

theorem layerParams_eq_ok {ids : List NodeId} {layers : List (NodeId × ChannelParams α)}
    (h : layerParams g known ids = .ok (some layers)) :
    layers.map Prod.fst = ids ∧
      ∀ layer ∈ layers, paramsOf g known (g.nodes.size + 1) layer.1 = .ok (some layer.2) := by
  induction ids generalizing layers with
  | nil =>
    cases h
    simp
  | cons id ids ih =>
    obtain ⟨found, hfound, h⟩ := except_bind_eq_ok.mp h
    cases found with
    | none => cases h
    | some p =>
      obtain ⟨rest, hrest, h⟩ := except_bind_eq_ok.mp h
      cases rest with
      | none => cases h
      | some rest =>
        cases h
        obtain ⟨hids, hparams⟩ := ih hrest
        refine ⟨by simp [hids], fun layer hlayer => ?_⟩
        rcases List.mem_cons.mp hlayer with rfl | hlayer
        · exact hfound
        · exact hparams layer hlayer

inductive Joined (g : Graph α) : List (Slot × ChannelParams α) → ChannelParams α → Prop
  | nil : Joined g [] ⟨[], []⟩
  | cons {slot : Slot} {p piece joined : ChannelParams α} {channels : Nat}
      {inputs : List (Slot × ChannelParams α)} (hchannels : channelCount? g slot = some channels)
      (hpiece : p.expand channels = .ok (some piece)) (h : Joined g inputs joined) :
      Joined g ((slot, p) :: inputs) (piece.append joined)

omit [Arithmetic α] in
theorem joined_of_foldlM {inputs : List (Slot × ChannelParams α)} {start : ChannelParams α}
    (h : inputs.foldlM (fun joined (slot, p) =>
      match joined, channelCount? g slot with
      | some joined, some channels => do return (← p.expand channels).map joined.append
      | _, _ => return none) (some start) = (.ok (some p) : Checked _)) :
    ∃ rest, Joined g inputs rest ∧ p = start.append rest := by
  -- Once an input has no parameters, the rest of the fold stays without.
  have hnone : ∀ inputs : List (Slot × ChannelParams α),
      inputs.foldlM (fun joined (slot, p) =>
        match joined, channelCount? g slot with
        | some joined, some channels => do return (← p.expand channels).map joined.append
        | _, _ => return none) none = (.ok none : Checked (Option (ChannelParams α))) := by
    intro inputs
    induction inputs with
    | nil => rfl
    | cons input inputs ih => exact ih
  induction inputs generalizing start with
  | nil =>
    cases h
    exact ⟨⟨[], []⟩, .nil, by simp [ChannelParams.append]⟩
  | cons input inputs ih =>
    obtain ⟨slot, p'⟩ := input
    rw [List.foldlM_cons] at h
    obtain ⟨joined, hjoined, h⟩ := except_bind_eq_ok.mp h
    dsimp only at hjoined
    cases joined with
    | none =>
      rw [hnone] at h
      cases h
    | some joined =>
      cases hchannels : channelCount? g slot with
      | none => simp [hchannels, pure, Except.pure] at hjoined
      | some channels =>
        rw [hchannels] at hjoined
        obtain ⟨piece, hpiece, hjoined⟩ := except_bind_eq_ok.mp hjoined
        cases piece with
        | none => cases hjoined
        | some piece =>
          cases hjoined
          obtain ⟨rest, hrest, rfl⟩ := ih h
          exact ⟨piece.append rest, .cons hchannels hpiece hrest,
            by simp [ChannelParams.append, List.append_assoc]⟩

theorem joinParams_cases {inputs : List (Slot × ChannelParams α)}
    (h : joinParams g axis inputs = .ok (some p)) :
    (∃ slot, (slot, p) ∈ inputs) ∨ axis = 1 ∧ Joined g inputs p := by
  cases inputs with
  | nil => cases h
  | cons input inputs =>
    rw [joinParams] at h
    split at h
    · cases h
      exact .inl ⟨input.1, List.mem_cons_self⟩
    · split at h
      · next haxis =>
        obtain ⟨rest, hrest, rfl⟩ := joined_of_foldlM h
        right
        simpa [haxis, ChannelParams.append] using hrest
      · cases h

section Values

variable {scale zeroPoint : α → Prop}

omit [Arithmetic α] in
theorem only_of_expand {piece : ChannelParams α} {channels : Nat} (hp : p.Only scale zeroPoint)
    (h : p.expand channels = .ok (some piece)) : piece.Only scale zeroPoint := by
  rcases ChannelParams.expand_cases h with ⟨s, z, rfl, rfl⟩ | ⟨rfl, -⟩
  · refine ⟨fun x hx => ?_, fun x hx => ?_⟩
    · exact (List.mem_replicate.mp hx).2 ▸ hp.scales s (List.mem_singleton_self s)
    · exact (List.mem_replicate.mp hx).2 ▸ hp.zeroPoints z (List.mem_singleton_self z)
  · exact hp

omit [Arithmetic α] in
theorem Joined.only {inputs : List (Slot × ChannelParams α)} (h : Joined g inputs p)
    (hinputs : ∀ input ∈ inputs, input.2.Only scale zeroPoint) : p.Only scale zeroPoint := by
  induction h with
  | nil => exact ⟨by simp, by simp⟩
  | cons _ hpiece _ ih =>
    obtain ⟨hfirst, hrest⟩ := List.forall_mem_cons.mp hinputs
    exact (only_of_expand hfirst hpiece).append (ih hrest)

theorem only_of_joinParams {inputs : List (Slot × ChannelParams α)}
    (h : joinParams g axis inputs = .ok (some p))
    (hinputs : ∀ input ∈ inputs, input.2.Only scale zeroPoint) : p.Only scale zeroPoint := by
  rcases joinParams_cases h with ⟨slot, hslot⟩ | ⟨-, hjoined⟩
  · exact hinputs _ hslot
  · exact hjoined.only hinputs

theorem Derives.only (h : Derives g known id p)
    (hknown : ∀ b ∈ known, b.2.Only scale zeroPoint) : p.Only scale zeroPoint := by
  induction h with
  | known hfind => exact hknown _ (List.mem_of_find?_eq_some hfind)
  | joined _ _ _ _ _ hjoin ih => exact only_of_joinParams hjoin ih
  | passed _ _ _ _ _ ih => exact ih

end Values

omit [Arithmetic α] in
theorem Joined.balanced {inputs : List (Slot × ChannelParams α)} (h : Joined g inputs p)
    (hinputs : ∀ input ∈ inputs, input.2.Balanced) : p.Balanced := by
  induction h with
  | nil => rfl
  | cons _ hpiece _ ih =>
    obtain ⟨hfirst, hrest⟩ := List.forall_mem_cons.mp hinputs
    exact (ChannelParams.balanced_of_expand hfirst hpiece).1.append (ih hrest)

theorem Derives.balanced (h : Derives g known id p) (hknown : ∀ b ∈ known, b.2.Balanced) :
    p.Balanced := by
  induction h with
  | known h => exact hknown _ (List.mem_of_find?_eq_some h)
  | joined _ _ _ _ _ hjoin ih =>
    rcases joinParams_cases hjoin with ⟨slot, hslot⟩ | ⟨-, hjoined⟩
    · exact ih _ hslot
    · exact hjoined.balanced ih
  | passed _ _ _ _ _ ih => exact ih

theorem Derives.unique {p' : ChannelParams α} (h : Derives g known id p)
    (h' : Derives g known id p') : p = p' := by
  induction h generalizing p' with
  | known hknown =>
    cases h' with
    | known hknown' =>
      rw [hknown] at hknown'
      cases hknown'
      rfl
    | joined hknown' => simp [hknown] at hknown'
    | passed hknown' => simp [hknown] at hknown'
  | @joined id n axis inputs p hknown hn hop hslots _ hjoin ih =>
    cases h' with
    | known hknown' => simp [hknown] at hknown'
    | @joined _ n' axis' inputs' _ hknown' hn' hop' hslots' hall' hjoin' =>
      obtain rfl : n = n' := Option.some.inj (hn.symm.trans hn')
      obtain rfl : axis = axis' := by
        rw [hop] at hop'
        exact Op.concat.inj hop'
      have hsame : inputs = inputs' := by
        refine eq_of_keys (hslots.trans hslots'.symm) fun input hinput input' hinput' he => ?_
        exact ih input hinput (he ▸ hall' input' hinput')
      subst hsame
      rw [hjoin] at hjoin'
      cases hjoin'
      rfl
    | passed _ hn' hop' =>
      obtain rfl := Option.some.inj (hn.symm.trans hn')
      exact absurd hop (hop' axis)
  | passed hknown hn hop hs _ ih =>
    cases h' with
    | known hknown' => simp [hknown] at hknown'
    | joined _ hn' hop' =>
      obtain rfl := Option.some.inj (hn.symm.trans hn')
      exact absurd hop' (hop _)
    | passed _ hn' _ hs' h' =>
      obtain rfl := Option.some.inj (hn.symm.trans hn')
      obtain rfl := Option.some.inj (hs.symm.trans hs')
      exact ih h'

end Derivation

section Exact

variable {g : Graph Rat} {known : List (NodeId × ChannelParams Rat)} {id : NodeId}
  {p : ChannelParams Rat}

theorem joinParams_eq_ok {axis : Nat} {inputs : List (Slot × ChannelParams Rat)}
    (h : joinParams g axis inputs = .ok (some p)) :
    (p.isSingle = true ∧ (∃ slot, (slot, p) ∈ inputs) ∧ ∀ input ∈ inputs, input.2 = p) ∨
      axis = 1 ∧ Joined g inputs p := by
  cases inputs with
  | nil => cases h
  | cons input inputs =>
    rw [joinParams] at h
    split at h
    · next hsame =>
      cases h
      simp only [List.all_eq_true, Bool.and_eq_true, ChannelParams.same_iff] at hsame
      exact .inl ⟨(hsame input List.mem_cons_self).1, ⟨input.1, List.mem_cons_self⟩,
        fun i hi => (hsame i hi).2⟩
    · split at h
      · next haxis =>
        obtain ⟨rest, hrest, rfl⟩ := joined_of_foldlM h
        right
        simpa [haxis, ChannelParams.append] using hrest
      · cases h

end Exact

section Acceptance

variable {α : Type} [Scalar α] {c : Context} {g : Graph α} {concat : NodeId} {plan : ConcatPlan α}
  {grid : Grid α}

structure Accepted (c : Context) (g : Graph α) (concat : NodeId) (plan : ConcatPlan α) : Prop where
  region : Region.around g concat = .ok plan.region
  boundary : plan.region.boundary ≠ []
  ranges : List.Forall₂ (fun id r => ∃ allowed, readBoundary? c g id = some (r, allowed))
    plan.region.boundary plan.ranges
  branches : List.Forall₂ (fun r branch => ∃ shared,
    planBranch plan.grid r shared = .ok (some branch)) plan.ranges plan.branches
  layers : layerParams g (plan.region.boundary.zip (plan.branches.map Branch.params))
    plan.region.layers = .ok (some plan.layers)

theorem planBranches_eq_ok {entries : List (Ranges α × Option (α × α))}
    {branches : List (Branch α)} (h : planBranches grid entries = .ok (some branches)) :
    List.Forall₂ (fun entry branch => planBranch grid entry.1 entry.2 = .ok (some branch))
      entries branches := by
  induction entries generalizing branches with
  | nil =>
    cases h
    exact .nil
  | cons entry entries ih =>
    obtain ⟨found, hfound, h⟩ := except_bind_eq_ok.mp h
    cases found with
    | none => cases h
    | some branch =>
      obtain ⟨rest, hrest, h⟩ := except_bind_eq_ok.mp h
      cases rest with
      | none => cases h
      | some rest =>
        cases h
        exact .cons hfound (ih hrest)

theorem option_mapM_eq_some {β γ : Type} {f : β → Option γ} {bs : List β} {cs : List γ}
    (h : bs.mapM f = some cs) : List.Forall₂ (fun b c => f b = some c) bs cs := by
  induction bs generalizing cs with
  | nil =>
    cases h
    exact .nil
  | cons b bs ih =>
    rw [List.mapM_cons] at h
    obtain ⟨c, hc, h⟩ := Option.bind_eq_some_iff.mp h
    obtain ⟨rest, hrest, h⟩ := Option.bind_eq_some_iff.mp h
    cases h
    exact .cons hc (ih hrest)

def sharedInterval (plan : ConcatPlan α) (g : Graph α) (id : NodeId) : Option (α × α) :=
  if plan.multiChannel then none
  else some (((g.attributes.interval? id).map fun i => (i.low, i.high)).getD plan.interval)

/-- The choices behind a plan: the grid is taken for the interval that covers all branches, and each
branch is mapped onto it. -/
structure Chosen (c : Context) (g : Graph α) (plan : ConcatPlan α) : Prop where
  grid : ∃ first firstAllowed rest,
    List.Forall₂ (fun id entry => readBoundary? c g id = some entry) plan.region.boundary
      ((first, firstAllowed) :: rest) ∧
    plan.ranges = ((first, firstAllowed) :: rest).map Prod.fst ∧
    (∀ entry ∈ rest, entry.1.levels = first.levels) ∧
    (Grid.select [plan.interval.1] [plan.interval.2] first.levels
      (rest.foldl (fun allowed (_, here) => allowed.inter here) firstAllowed)).run =
        .ok (.ok (some plan.grid))
  interval : plan.interval = cover (plan.ranges.map Ranges.outputInterval)
  symmetric : plan.grid.hasZeroPoint = true → c.params.supportAsymmetric = true
  multiChannel : plan.multiChannel = keepsScales g plan.region
  branches : List.Forall₂ (fun entry branch =>
      planBranch plan.grid entry.1 entry.2 = .ok (some branch))
    (plan.ranges.zip (plan.region.boundary.map (plan.sharedInterval g))) plan.branches

theorem planned_of_ofConcat? (h : ofConcat? c g concat = .ok (some plan)) :
    Accepted c g concat plan ∧ Chosen c g plan := by
  rw [ofConcat?] at h
  split at h
  swap
  · cases h
  next region hregion =>
  rw [ofRegion?] at h
  split at h
  swap
  · cases h
  next boundary hboundary =>
  split at h
  · cases h
  next first firstAllowed rest =>
  have hread := option_mapM_eq_some hboundary
  split at h
  · cases h
  next hlevels =>
  dsimp only at h
  obtain ⟨found, hselect, h⟩ := except_bind_eq_ok.mp h
  split at h
  swap
  · cases h
  next grid =>
  split at h
  · cases h
  next hsymmetric =>
  obtain ⟨found, hbranches, h⟩ := except_bind_eq_ok.mp h
  split at h
  swap
  · cases h
  next branches =>
  obtain ⟨found, hlayers, h⟩ := except_bind_eq_ok.mp h
  split at h
  swap
  · cases h
  cases h
  have hplanned := planBranches_eq_ok hbranches
  refine ⟨⟨hregion, fun hnil => ?_, ?_, ?_, hlayers⟩, ⟨?_, rfl, fun hzero => ?_, rfl, hplanned⟩⟩
  · have hempty := hread.length_eq
    rw [hnil] at hempty
    cases hempty
  · exact List.forall₂_map_right_iff.mpr (hread.imp fun id entry hentry => ⟨entry.2, hentry⟩)
  · refine List.forall₂_iff_zip.mpr ⟨?_, fun {r branch} hmem => ?_⟩
    · rw [← hplanned.length_eq]
      simp [hread.length_eq]
    · obtain ⟨i, hi⟩ := List.mem_iff_getElem?.mp hmem
      obtain ⟨hr, hbranch⟩ := List.getElem?_zip_eq_some.mp hi
      obtain ⟨entry, hentry, hplan⟩ := forall₂_getElem? hplanned.flip hbranch
      obtain ⟨hr', -⟩ := List.getElem?_zip_eq_some.mp hentry
      obtain rfl := Option.some.inj (hr.symm.trans hr')
      exact ⟨entry.2, hplan⟩
  · simp only [List.any_eq_true, bne_iff_ne, ne_eq, Prod.exists, not_exists, not_and,
      Decidable.not_not] at hlevels
    exact ⟨first, firstAllowed, rest, hread, rfl, fun entry hentry => hlevels _ _ hentry, hselect⟩
  · rw [hzero] at hsymmetric
    simpa using hsymmetric

theorem accepted_of_ofConcat? (h : ofConcat? c g concat = .ok (some plan)) :
    Accepted c g concat plan := (planned_of_ofConcat? h).1

def Mapped (grid : Grid α) (shared : Option (α × α)) (lows highs : List α)
    (params : List (ScaleZeroPoint α)) : Prop :=
  match shared with
  | some (low, high) => ∃ p, ScaleZeroPoint.ofInterval low high grid.low grid.high = .ok p ∧
      params = List.replicate lows.length p
  | none => channelParams grid lows highs = .ok params

theorem laidOut_eq_ok {shape : List Nat} {lows highs : List α}
    {params : List (ScaleZeroPoint α)} {flagged : Nat} {branch : Branch α}
    (h : (do
      let lows ← (layOut shape (← quantizeBounds grid params lows)).run
      let highs ← (layOut shape (← quantizeBounds grid params highs)).run
      match lows, highs, ChannelParams.ofList? params with
      | .ok low, .ok high, some p => return some ⟨low, high, p, flagged⟩
      | _, _, _ => return none : Checked (Option (Branch α))) = .ok (some branch)) :
    quantizeBounds grid params lows = .ok branch.low.data ∧
      quantizeBounds grid params highs = .ok branch.high.data ∧
      ChannelParams.ofList? params = some branch.params := by
  obtain ⟨quantizedLows, hlows, h⟩ := except_bind_eq_ok.mp h
  obtain ⟨low, hlow, h⟩ := except_bind_eq_ok.mp h
  obtain ⟨quantizedHighs, hhighs, h⟩ := except_bind_eq_ok.mp h
  obtain ⟨high, hhigh, h⟩ := except_bind_eq_ok.mp h
  split at h
  · next hp _ _ =>
    cases h
    exact ⟨Tensor.data_of_layOut hlow ▸ hlows, Tensor.data_of_layOut hhigh ▸ hhighs, hp⟩
  · cases h

theorem planBranch_run {r : Ranges α} {shared : Option (α × α)} {branch : Branch α}
    (h : planBranch grid r shared = .ok (some branch)) :
    ∃ lows highs params, r.outputBounds = .ok (lows, highs) ∧
      Mapped grid shared lows highs params ∧
      quantizeBounds grid params lows = .ok branch.low.data ∧
      quantizeBounds grid params highs = .ok branch.high.data ∧
      ChannelParams.ofList? params = some branch.params := by
  obtain ⟨⟨lows, highs⟩, hbounds, h⟩ := except_bind_eq_ok.mp h
  cases shared with
  | none =>
    obtain ⟨params, hparams, h⟩ := except_bind_eq_ok.mp h
    exact ⟨lows, highs, params, hbounds, hparams, laidOut_eq_ok h⟩
  | some interval =>
    obtain ⟨p, hp, h⟩ := except_bind_eq_ok.mp h
    obtain ⟨params, hparams, h⟩ := except_bind_eq_ok.mp h
    cases hparams
    exact ⟨lows, highs, _, hbounds, ⟨p, hp, rfl⟩, laidOut_eq_ok h⟩

theorem planBranch_eq_ok {r : Ranges α} {shared : Option (α × α)} {branch : Branch α}
    (h : planBranch grid r shared = .ok (some branch)) :
    branch.params.Balanced ∧ branch.params.scales ≠ [] := by
  obtain ⟨-, -, params, -, -, -, -, hparams⟩ := planBranch_run h
  exact ChannelParams.ofList?_eq_some hparams

end Acceptance

end ConcatPlan

end LowPrecision
