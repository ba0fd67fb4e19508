import Mathlib.Tactic.FieldSimp
import Mathlib.Tactic.LinearCombination
import Mathlib.Tactic.Linarith
import LowPrecision.Proofs.Graph.Regions
import LowPrecision.Proofs.Quantization.Layouts
import LowPrecision.Proofs.Rewrite.Plans

namespace LowPrecision

def Op.keepsChannels {α : Type} : Op α → Bool
  | .concat _ | .relu | .maxPool | .avgPool | .interpolate _ => true
  | .split axis | .variadicSplit axis => axis != 1
  | .depthToSpace blockSize => blockSize ≤ 1
  | _ => false

abbrev Element := Slot × Index

structure Geometry where
  shape : Slot → List Nat
  source : Slot → Index → Index
  window : Slot → Index → List Index

namespace Geometry

variable (geo : Geometry)

def part (axis : Nat) : List Slot → Index → Option Element
  | [], _ => none
  | s :: rest, i =>
    let extent := (geo.shape s).getD axis 0
    if i.getD axis 0 < extent then some (s, i)
    else part axis rest (i.set axis (i.getD axis 0 - extent))

def reads (n : Node Rat) (e : Element) : List Element :=
  match n.op with
  | .concat axis => (geo.part axis n.inputs e.2).toList
  | .relu => (n.input? 0).toList.map (·, e.2)
  | .maxPool | .avgPool => (n.input? 0).toList.flatMap fun s => (geo.window e.1 e.2).map (s, ·)
  | _ => (n.input? 0).toList.map (·, geo.source e.1 e.2)

def combine (op : Op Rat) (xs : List Rat) : Option Rat :=
  match op with
  | .relu => xs.head?.map (max 0)
  | .maxPool => xs.max?
  | .avgPool => xs.head?.map fun _ => xs.sum / xs.length
  | _ => xs.head?

/-- The geometry of an output: every element is computed from elements of the inputs. Operations
that keep the channels read from the same channel. -/
structure Explains (n : Node Rat) (o : Slot) : Prop where
  layer : n.op.preservesPrecision = true ∨ n.op = .avgPool
  reads (i : Index) (hi : i.Inside (geo.shape o)) :
    geo.reads n (o, i) ≠ [] ∧ ∀ e ∈ geo.reads n (o, i), e.2.Inside (geo.shape e.1)
  channel (hkeeps : n.op.keepsChannels = true) (hjoin : ∀ axis, n.op ≠ .concat axis) (i : Index)
    (hi : i.Inside (geo.shape o)) : ∀ e ∈ geo.reads n (o, i), e.2.channel = i.channel

structure Describes (g : Graph Rat) (r : Region) : Prop where
  static (s : Slot) (p : Port) (shape : List Nat) (hp : g.port? s = some p)
    (hshape : p.shape = some shape) : geo.shape s = shape
  layer (id : NodeId) (hid : id ∈ r.layers) (n : Node Rat) (hn : g.node? id = some n) (k : Nat)
    (hk : k < n.outputs.length) : geo.Explains n ⟨id, k⟩

def Evaluates (g : Graph Rat) (r : Region) (v : Element → Rat) : Prop :=
  ∀ id ∈ r.layers, ∀ n, g.node? id = some n → ∀ k < n.outputs.length, ∀ i : Index,
    i.Inside (geo.shape ⟨id, k⟩) →
      combine n.op ((geo.reads n (⟨id, k⟩, i)).map v) = some (v (⟨id, k⟩, i))

end Geometry

namespace Geometry

variable {geo : Geometry} {n : Node Rat} {e : Element}

theorem mem_inputs_of_part {axis : Nat} {slots : List Slot} {i : Index}
    (h : geo.part axis slots i = some e) : e.1 ∈ slots := by
  induction slots generalizing i with
  | nil => cases h
  | cons s slots ih =>
    simp only [part] at h
    split at h
    · cases h
      exact List.mem_cons_self
    · exact List.mem_cons_of_mem s (ih h)

theorem mem_inputs_of_reads {e' : Element} (h : e' ∈ geo.reads n e) : e'.1 ∈ n.inputs := by
  have hfirst : ∀ s, n.input? 0 = some s → s ∈ n.inputs := fun s hs => List.mem_of_getElem? hs
  rw [reads] at h
  split at h
  · exact mem_inputs_of_part (Option.mem_toList.mp h)
  · obtain ⟨s, hs, rfl⟩ := List.mem_map.mp h
    exact hfirst s (Option.mem_toList.mp hs)
  · obtain ⟨s, hs, h⟩ := List.mem_flatMap.mp h
    obtain ⟨j, -, rfl⟩ := List.mem_map.mp h
    exact hfirst s (Option.mem_toList.mp hs)
  · obtain ⟨s, hs, h⟩ := List.mem_flatMap.mp h
    obtain ⟨j, -, rfl⟩ := List.mem_map.mp h
    exact hfirst s (Option.mem_toList.mp hs)
  · obtain ⟨s, hs, rfl⟩ := List.mem_map.mp h
    exact hfirst s (Option.mem_toList.mp hs)

theorem slot_of_reads {e' : Element} {s : Slot} (hop : ∀ axis, n.op ≠ .concat axis)
    (hs : n.input? 0 = some s) (h : e' ∈ geo.reads n e) : e'.1 = s := by
  rw [reads] at h
  split at h
  · next axis hjoin => exact absurd hjoin (hop axis)
  all_goals
    simp only [hs, Option.toList_some, List.map_cons, List.map_nil, List.flatMap_cons,
      List.flatMap_nil, List.append_nil, List.mem_singleton, List.mem_map] at h
    first
      | exact congrArg Prod.fst h
      | obtain ⟨j, -, rfl⟩ := h
        rfl

theorem reads_of_moved {e' : Element} (hop : n.op.keepsChannels = false)
    (h : e' ∈ geo.reads n e) : geo.reads n e = [e'] := by
  rw [reads] at h ⊢
  split at h <;> simp_all [Op.keepsChannels]

theorem combine_of_moved {op : Op Rat} (hop : op.keepsChannels = false) (xs : List Rat) :
    combine op xs = xs.head? := by
  cases op <;> first | rfl | cases hop

section Arithmetic

theorem max?_eq_some_iff {xs : List Rat} {m : Rat} : xs.max? = some m ↔ m ∈ xs ∧ ∀ x ∈ xs, x ≤ m :=
  List.max?_eq_some_iff

theorem affine_ext {s z s' z' : Rat} (h0 : (0 - z) * s = (0 - z') * s')
    (h1 : (1 - z) * s = (1 - z') * s') (x : Rat) : (x - z) * s = (x - z') * s' := by
  have hs : s = s' := by linarith
  subst hs
  linear_combination h0

theorem max_zero_affine_iff {s z : Rat} :
    (∀ x : Rat, max 0 ((x - z) * s) = (max 0 x - z) * s) ↔ 0 ≤ s ∧ (s = 0 ∨ z = 0) := by
  constructor
  · intro h
    have hzero := h 0
    have hbelow := h (-(|z| + 1))
    have habove := h (|z| + 1)
    have habs := le_abs_self z
    have hneg := neg_abs_le z
    have hpos := abs_nonneg z
    rw [max_eq_right (by linarith : (0 : Rat) ≤ |z| + 1)] at habove
    rw [max_eq_left (by linarith : -(|z| + 1) ≤ (0 : Rat))] at hbelow
    rw [max_self] at hzero
    have hs : 0 ≤ s := by
      by_contra hlt
      have : (|z| + 1 - z) * s < 0 := mul_neg_of_pos_of_neg (by linarith) (by linarith)
      rw [← habove] at this
      exact absurd (le_max_left 0 _) (not_le.mpr this)
    refine ⟨hs, ?_⟩
    have hle : (-(|z| + 1) - z) * s ≤ 0 := mul_nonpos_of_nonpos_of_nonneg (by linarith) hs
    rw [max_eq_left hle] at hbelow
    rcases mul_eq_zero.mp hbelow.symm with hz | hs
    · exact .inr (by linarith)
    · exact .inl hs
  · rintro ⟨hs, rfl | rfl⟩ x
    · simp
    · rw [sub_zero, sub_zero]
      rcases le_total 0 x with hx | hx
      · rw [max_eq_right hx, max_eq_right (mul_nonneg hx hs)]
      · rw [max_eq_left hx, max_eq_left (mul_nonpos_of_nonpos_of_nonneg hx hs), zero_mul]

theorem sum_map_affine (xs : List Rat) (s z : Rat) :
    (xs.map fun x => (x - z) * s).sum = (xs.sum - xs.length * z) * s := by
  induction xs with
  | nil => simp
  | cons x xs ih =>
    simp only [List.map_cons, List.sum_cons, ih, List.length_cons, Nat.cast_add, Nat.cast_one]
    ring

theorem combine_map {op : Op Rat} {xs : List Rat} {s z : Rat}
    (hrelu : op = .relu → 0 ≤ s ∧ (s = 0 ∨ z = 0))
    (hmax : op = .maxPool → 0 ≤ s ∨ ∀ x ∈ xs, ∀ y ∈ xs, x = y) :
    combine op (xs.map fun x => (x - z) * s) = (combine op xs).map fun x => (x - z) * s := by
  cases xs with
  | nil => cases op <;> rfl
  | cons x xs =>
    cases op with
    | relu => simp [combine, max_zero_affine_iff.mpr (hrelu rfl) x]
    | maxPool =>
      obtain ⟨m, hm⟩ : ∃ m, (x :: xs).max? = some m := ⟨_, rfl⟩
      simp only [combine, hm, Option.map_some]
      obtain ⟨hmem, hle⟩ := max?_eq_some_iff.mp hm
      refine max?_eq_some_iff.mpr ⟨List.mem_map_of_mem hmem, fun y hy => ?_⟩
      obtain ⟨x', hx', rfl⟩ := List.mem_map.mp hy
      rcases hmax rfl with hs | hall
      · exact mul_le_mul_of_nonneg_right (by linarith [hle x' hx']) hs
      · rw [hall x' hx' m hmem]
    | avgPool =>
      have hlength : ((x :: xs).length : Rat) ≠ 0 := by
        simp only [List.length_cons]
        exact Nat.cast_ne_zero.mpr (Nat.succ_ne_zero _)
      simp only [combine, List.map_cons, List.head?_cons, Option.map_some, Option.some.injEq]
      rw [← List.map_cons (f := fun x => (x - z) * s), sum_map_affine, List.length_map]
      field_simp
    | _ => rfl

theorem eq_of_max?_map {xs : List Rat} {m s z : Rat} (hs : s < 0) (hm : xs.max? = some m)
    (h : (xs.map fun x => (x - z) * s).max? = some ((m - z) * s)) : ∀ x ∈ xs, ∀ y ∈ xs, x = y := by
  have heq : ∀ x ∈ xs, x = m := by
    intro x hx
    have hle := (max?_eq_some_iff.mp hm).2 x hx
    have hge := (max?_eq_some_iff.mp h).2 _ (List.mem_map_of_mem hx)
    have := (mul_le_mul_right_of_neg hs).mp hge
    linarith
  intro x hx y hy
  rw [heq x hx, heq y hy]

theorem combine_const {op : Op Rat} {xs : List Rat} {c : Rat} (hne : xs ≠ [])
    (h : ∀ x ∈ xs, x = c) : combine op xs = some (if op = .relu then max 0 c else c) := by
  obtain ⟨x, xs, rfl⟩ := List.exists_cons_of_ne_nil hne
  obtain rfl : x = c := h x List.mem_cons_self
  cases op with
  | maxPool => exact max?_eq_some_iff.mpr ⟨List.mem_cons_self, fun y hy => le_of_eq (h y hy)⟩
  | avgPool =>
    have hlength : ((x :: xs).length : Rat) ≠ 0 := by
      simp only [List.length_cons]
      exact Nat.cast_ne_zero.mpr (Nat.succ_ne_zero _)
    have hsum : (x :: xs).sum = (x :: xs).length * x := by
      rw [List.sum_eq_card_nsmul (x :: xs) x h, nsmul_eq_mul]
    simp only [combine, List.head?_cons, Option.map_some, hsum]
    rw [mul_div_cancel_left₀ x hlength]
    simp
  | _ => simp [combine]

end Arithmetic

section Existence

variable {g : Graph Rat} {r : Region} {known : List (NodeId × ChannelParams Rat)}

def evaluate (geo : Geometry) (g : Graph Rat) (known : List (NodeId × ChannelParams Rat))
    (start : Element → Rat) : Nat → Element → Rat
  | 0, e => start e
  | depth + 1, e =>
    match known.find? (·.1 = e.1.node), g.node? e.1.node with
    | none, some n =>
      (combine n.op ((geo.reads n e).map (geo.evaluate g known start depth))).getD 0
    | _, _ => start e

theorem evaluate_succ {start : Element → Rat} {depth : Nat}
    (hknown : known.find? (·.1 = e.1.node) = none) (hn : g.node? e.1.node = some n) :
    geo.evaluate g known start (depth + 1) e =
      (combine n.op ((geo.reads n e).map (geo.evaluate g known start depth))).getD 0 := by
  rw [evaluate, hknown, hn]

theorem evaluate_known {start : Element → Rat} {depth : Nat} {b : NodeId × ChannelParams Rat}
    (hknown : known.find? (·.1 = e.1.node) = some b) :
    geo.evaluate g known start depth e = start e := by
  cases depth with
  | zero => rfl
  | succ depth => rw [evaluate, hknown]

theorem evaluate_stable {start : Element → Rat} {depth : Nat} {p : ChannelParams Rat}
    (h : ConcatPlan.paramsOf g known depth e.1.node = .ok (some p)) :
    geo.evaluate g known start (depth + 1) e = geo.evaluate g known start depth e := by
  induction depth generalizing e p with
  | zero => cases h
  | succ depth ih =>
    rcases ConcatPlan.paramsOf_eq_ok h with ⟨b, hknown⟩ | ⟨hknown, n, hn, hcase⟩
    · rw [evaluate_known hknown, evaluate_known hknown]
    · rw [evaluate_succ hknown hn, evaluate_succ hknown hn]
      have hreads : ∀ e' ∈ geo.reads n e, ∃ p',
          ConcatPlan.paramsOf g known depth e'.1.node = .ok (some p') := by
        intro e' he'
        rcases hcase with ⟨axis, inputs, -, hslots, hparams, -⟩ | ⟨hop, s, hs, hparams⟩
        · have hmem := mem_inputs_of_reads he'
          rw [← hslots] at hmem
          obtain ⟨input, hinput, hslot⟩ := List.mem_map.mp hmem
          exact ⟨input.2, hslot ▸ hparams input hinput⟩
        · exact ⟨p, by rw [slot_of_reads hop hs he']; exact hparams⟩
      have hsame : (geo.reads n e).map (geo.evaluate g known start (depth + 1)) =
          (geo.reads n e).map (geo.evaluate g known start depth) := by
        apply List.map_congr_left
        intro e' he'
        obtain ⟨p', hp'⟩ := hreads e' he'
        exact ih hp'
      rw [hsame]

theorem combine_isSome {op : Op Rat} {xs : List Rat} (h : xs ≠ []) : (combine op xs).isSome := by
  obtain ⟨x, xs, rfl⟩ := List.exists_cons_of_ne_nil h
  cases op <;> simp [combine, List.max?]

theorem exists_evaluation (hgeo : geo.Describes g r) (hlayers : ∀ id ∈ r.layers,
      known.find? (·.1 = id) = none ∧
        ∃ p, ConcatPlan.paramsOf g known (g.nodes.size + 1) id = .ok (some p))
    (start : Element → Rat) : ∃ v : Element → Rat, geo.Evaluates g r v ∧
      ∀ e b, known.find? (·.1 = e.1.node) = some b → v e = start e := by
  refine ⟨geo.evaluate g known start (g.nodes.size + 1), ?_, fun e b hb => evaluate_known hb⟩
  intro id hid n hn k hk i hi
  obtain ⟨hknown, p, hp⟩ := hlayers id hid
  obtain ⟨hne, -⟩ := (hgeo.layer id hid n hn k hk).reads i hi
  have hstable : geo.evaluate g known start (g.nodes.size + 2) (⟨id, k⟩, i) =
      geo.evaluate g known start (g.nodes.size + 1) (⟨id, k⟩, i) := evaluate_stable hp
  have hsome : (combine n.op ((geo.reads n (⟨id, k⟩, i)).map
      (geo.evaluate g known start (g.nodes.size + 1)))).isSome := combine_isSome (by simpa using hne)
  rw [← hstable, evaluate_succ hknown hn]
  obtain ⟨x, hx⟩ := Option.isSome_iff_exists.mp hsome
  rw [hx]
  rfl

end Existence

theorem channel_set {i : Index} {x : Nat} (h : x ≤ i.channel) : Index.channel (i.set 1 x) = x := by
  match i, h with
  | [], h => exact (Nat.le_zero.mp h).symm
  | [_], h => exact (Nat.le_zero.mp h).symm
  | _ :: _ :: _, _ => rfl

section Parameters

variable {g : Graph Rat} {r : Region} {geo : Geometry}

theorem value_of_part {inputs : List (Slot × ChannelParams Rat)} {p : ChannelParams Rat}
    (hgeo : geo.Describes g r) (h : ConcatPlan.Joined g inputs p)
    (hinputs : ∀ input ∈ inputs, input.2.Balanced) {i : Index} {e : Element}
    (hpart : geo.part 1 (inputs.map Prod.fst) i = some e) :
    i.channel < p.scales.length ∧ ∃ input ∈ inputs, input.1 = e.1 ∧
      ∀ x, p.value i.channel x = input.2.value e.2.channel x := by
  induction h generalizing i with
  | nil => cases hpart
  | @cons slot p piece joined channels inputs hchannels hpiece hjoined ih =>
    have hrestBalanced : ∀ input ∈ inputs, input.2.Balanced :=
      fun input hinput => hinputs input (List.mem_cons_of_mem _ hinput)
    obtain ⟨hbalanced, hlength, hvalue⟩ :=
      ChannelParams.expand_eq_ok (hinputs _ List.mem_cons_self) hpiece
    have hextent : (geo.shape slot).getD 1 0 = channels := by
      obtain ⟨port, hport, hchannels⟩ := Option.bind_eq_some_iff.mp hchannels
      obtain ⟨shape, hshape, hchannels⟩ := Option.bind_eq_some_iff.mp hchannels
      rw [hgeo.static slot port shape hport hshape, List.getD_eq_getElem?_getD, hchannels]
      rfl
    rw [List.map_cons, part, hextent, show i.getD 1 0 = i.channel from rfl] at hpart
    have htotal : (piece.append joined).scales.length = channels + joined.scales.length := by
      simp [ChannelParams.append, hlength]
    rw [htotal]
    split at hpart
    · next hlt =>
      cases hpart
      refine ⟨Nat.lt_add_right _ hlt, (slot, p), List.mem_cons_self, rfl, fun x => ?_⟩
      rw [ChannelParams.value_append hbalanced (hjoined.balanced hrestBalanced)
        (htotal ▸ Nat.lt_add_right _ hlt), hlength, if_pos hlt]
      exact hvalue _ hlt x
    · next hge =>
      have hset : Index.channel (i.set 1 (i.channel - channels)) = i.channel - channels :=
        channel_set (Nat.sub_le _ _)
      obtain ⟨hlt, input, hinput, hslot, hsame⟩ := ih hrestBalanced hpart
      rw [hset] at hlt hsame
      have hge' : channels ≤ i.channel := Nat.le_of_not_lt hge
      have hin : i.channel < channels + joined.scales.length := by omega
      refine ⟨hin, input, List.mem_cons_of_mem _ hinput, hslot, fun x => ?_⟩
      rw [ChannelParams.value_append hbalanced (hjoined.balanced hrestBalanced) (htotal ▸ hin),
        hlength, if_neg hge]
      exact hsame x

variable {known : List (NodeId × ChannelParams Rat)} {id : NodeId} {n : Node Rat} {k : Nat}
  {p p' : ChannelParams Rat} {i : Index} {e : Element}

theorem derives_of_reads (hknown : known.find? (·.1 = id) = none) (hn : g.node? id = some n)
    (hp : ConcatPlan.Derives g known id p) {e' : Element} (he : e ∈ geo.reads n e') :
    ∃ p', ConcatPlan.Derives g known e.1.node p' := by
  cases hp with
  | known h => simp [hknown] at h
  | joined _ hn' _ hslots hall =>
    obtain rfl := Option.some.inj (hn.symm.trans hn')
    have hslot := mem_inputs_of_reads he
    rw [← hslots] at hslot
    obtain ⟨input, hinput, hfst⟩ := List.mem_map.mp hslot
    exact ⟨input.2, hfst ▸ hall input hinput⟩
  | passed _ hn' hop hs hp =>
    obtain rfl := Option.some.inj (hn.symm.trans hn')
    exact ⟨p, slot_of_reads hop hs he ▸ hp⟩

theorem params_of_passed (hknown : known.find? (·.1 = id) = none) (hn : g.node? id = some n)
    (hop : ∀ axis, n.op ≠ .concat axis) (hp : ConcatPlan.Derives g known id p) {e' : Element}
    (he : e ∈ geo.reads n e') (hp' : ConcatPlan.Derives g known e.1.node p') : p = p' := by
  cases hp with
  | known h => simp [hknown] at h
  | joined _ hn' hop' =>
    obtain rfl := Option.some.inj (hn.symm.trans hn')
    exact absurd hop' (hop _)
  | passed _ hn' _ hs hp =>
    obtain rfl := Option.some.inj (hn.symm.trans hn')
    rw [slot_of_reads hop hs he] at hp'
    exact hp.unique hp'

theorem value_of_reads (hgeo : geo.Describes g r) (hbalanced : ∀ b ∈ known, b.2.Balanced)
    (hid : id ∈ r.layers) (hknown : known.find? (·.1 = id) = none) (hn : g.node? id = some n)
    (hk : k < n.outputs.length) (hi : i.Inside (geo.shape ⟨id, k⟩))
    (hkeeps : n.op.keepsChannels = true) (hp : ConcatPlan.Derives g known id p)
    (he : e ∈ geo.reads n (⟨id, k⟩, i)) (hp' : ConcatPlan.Derives g known e.1.node p') (x : Rat) :
    p.value i.channel x = p'.value e.2.channel x := by
  by_cases hop : ∀ axis, n.op ≠ .concat axis
  · rw [params_of_passed hknown hn hop hp he hp',
      (hgeo.layer id hid n hn k hk).channel hkeeps hop i hi e he]
  · cases hp with
    | known h => simp [hknown] at h
    | passed _ hn' hop' =>
      obtain rfl := Option.some.inj (hn.symm.trans hn')
      exact absurd hop' hop
    | @joined _ _ axis inputs _ _ hn' hop' hslots hall hjoin =>
      obtain rfl := Option.some.inj (hn.symm.trans hn')
      rw [reads, hop'] at he
      have hpart : geo.part axis (inputs.map Prod.fst) i = some e := by
        rw [hslots]
        exact Option.mem_toList.mp he
      rcases ConcatPlan.joinParams_eq_ok hjoin with ⟨hsingle, ⟨slot, hslot⟩, hsame⟩ | ⟨rfl, hjoined⟩
      · obtain ⟨input, hinput, hfst⟩ := List.mem_map.mp (mem_inputs_of_part hpart)
        have hpp' : p = p' := by
          rw [← hsame input hinput]
          exact (hall input hinput).unique (hfst ▸ hp')
        rw [← hpp']
        exact ChannelParams.value_of_isSingle
          ((hall _ hslot).balanced hbalanced) hsingle _ _ x
      · obtain ⟨-, input, hinput, hfst, hvalue⟩ := value_of_part hgeo hjoined
          (fun input hinput => (hall input hinput).balanced hbalanced) hpart
        rw [hvalue x, (hall input hinput).unique (hfst ▸ hp')]

end Parameters

end Geometry

end LowPrecision
