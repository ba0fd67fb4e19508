import LowPrecision.Proofs.Attributes.Store
import LowPrecision.Proofs.Graph.Success

namespace LowPrecision

namespace Graph

variable {α ε : Type} {g g' : Graph α}

structure Pruned (g g' : Graph α) (p : NodeId → Prop) : Prop where
  wellFormed : g'.WellFormed
  size : g'.nodes.size = g.nodes.size
  node (v : NodeId) :
    (g'.face? v = g.face? v ∧ g'.name? v = g.name? v) ∨ p v ∧ g'.face? v = none
  interface (v : NodeId) (f : Face α) :
    g.face? v = some f → f.kind.IsInterface → g'.face? v = some f
  entries (e : AttributeKey × Attribute) : e ∈ g'.attributes.entries →
    e ∈ g.attributes.entries ∧ g'.face? e.1.target.owner = g.face? e.1.target.owner

namespace Pruned

variable {p : NodeId → Prop}

theorem refl (h : g.WellFormed) : Pruned g g p :=
  ⟨h, rfl, fun _ => .inl ⟨rfl, rfl⟩, fun _ _ hf _ => hf, fun _ he => ⟨he, rfl⟩⟩

theorem trans {g₁ g₂ g₃ : Graph α} (h : Pruned g₁ g₂ p) (h' : Pruned g₂ g₃ p) :
    Pruned g₁ g₃ p where
  wellFormed := h'.wellFormed
  size := h'.size.trans h.size
  node v := by
    rcases h'.node v with ⟨hface', hname'⟩ | hgone
    · rcases h.node v with ⟨hface, hname⟩ | ⟨hp, hgone⟩
      · exact .inl ⟨hface'.trans hface, hname'.trans hname⟩
      · exact .inr ⟨hp, hface'.trans hgone⟩
    · exact .inr hgone
  interface v f hf hk := h'.interface v f (h.interface v f hf hk) hk
  entries e he := by
    obtain ⟨hmem', hface'⟩ := h'.entries e he
    obtain ⟨hmem, hface⟩ := h.entries e hmem'
    exact ⟨hmem, hface'.trans hface⟩

theorem face_eq (h : Pruned g g' p) {v : NodeId} {f : Face α} (hv : g'.face? v = some f) :
    g.face? v = some f := by
  rcases h.node v with ⟨hface, -⟩ | ⟨-, hgone⟩
  · exact hface ▸ hv
  · rw [hgone] at hv
    cases hv

theorem face_of_not (h : Pruned g g' p) {v : NodeId} (hv : ¬ p v) : g'.face? v = g.face? v := by
  rcases h.node v with ⟨hface, -⟩ | ⟨hp, -⟩
  · exact hface
  · exact absurd hp hv

end Pruned

@[simp] theorem attributes_removeReader (g : Graph α) (s r : Slot) :
    (g.removeReader s r).attributes = g.attributes := rfl

theorem attributes_foldl_removeReader (g : Graph α) (links : List (Slot × Slot)) :
    (links.foldl (fun g (s, r) => g.removeReader s r) g).attributes = g.attributes :=
  foldl_keeps Graph.attributes (fun _ _ => attributes_removeReader ..) g _

theorem isDead_eq_true {n : Node α} :
    n.isDead = true ↔ ¬ n.kind.IsInterface ∧ n.readerCount = 0 := by
  simp [Node.isDead, OpKind.IsInterface]

theorem pruned_detach (h : g.WellFormed) {id : NodeId} {n : Node α} (hn : g.node? id = some n)
    (hd : n.isDead = true) {p : NodeId → Prop} (hp : p id) : Pruned g (g.detach id n) p where
  wellFormed := h.detach hn (isDead_eq_true.mp hd).2
  size := size_detach g id n
  node v := by
    by_cases hv : v = id
    · subst hv
      exact .inr ⟨hp, by simp [face?_detach]⟩
    · exact .inl ⟨by simp [face?_detach, hv], by simp [hv]⟩
  interface v f hf hk := by
    rw [face?_detach, if_neg, hf]
    rintro rfl
    obtain ⟨m, hm, rfl⟩ := face?_eq_some.mp hf
    obtain rfl : n = m := Option.some.inj (hn.symm.trans hm)
    exact (isDead_eq_true.mp hd).1 hk
  entries e he := by
    rw [detach, drop, AttributeStore.forgetNode, attributes_foldl_removeReader] at he
    obtain ⟨hmem, howner⟩ := List.mem_filter.mp he
    have hne : e.1.target.owner ≠ id := by simpa using howner
    exact ⟨hmem, by rw [face?_detach, if_neg hne]⟩

def Abandons (g : Graph α) (p : NodeId → Prop) (v : NodeId) : Prop :=
  (∀ u i s, g.input? u i = some s → s.node = v → p u) → p v

theorem pruned_removeDead {p : NodeId → Prop} (g : Graph α) (stack : List NodeId)
    (h : g.WellFormed) (hup : ∀ v i s, p v → g.input? v i = some s → g.Abandons p s.node)
    (hstack : ∀ v ∈ stack, g.Abandons p v) : Pruned g (g.removeDead stack) p := by
  fun_induction removeDead g stack with
  | case1 => exact .refl h
  | case2 g id rest hn ih => exact ih h hup fun v hv => hstack v (by simp [hv])
  | case3 g id rest n hn hdead ih =>
    have hid : p id := hstack id (by simp) fun u i s hi hs =>
      absurd hs (h.not_read_of_readerCount hn (isDead_eq_true.mp hdead).2 hi)
    have hdetach := pruned_detach h hn hdead hid
    have habandons : ∀ v, g.Abandons p v → (g.detach id n).Abandons p v := by
      intro v hv hread
      refine hv fun u i s hi hs => ?_
      by_cases hu : u = id
      · exact hu ▸ hid
      · exact hread u i s (by rw [input?_detach, if_neg hu, hi]) hs
    refine hdetach.trans (ih hdetach.wellFormed ?_ ?_)
    · intro v i s hv hi
      rw [input?_detach] at hi
      split at hi
      · cases hi
      · exact habandons _ (hup v i s hv hi)
    · intro v hv
      rcases List.mem_append.mp hv with hv | hv
      · rw [List.mem_reverse, Node.producers, List.mem_map] at hv
        obtain ⟨s, hs, rfl⟩ := hv
        obtain ⟨i, hi⟩ := List.getElem?_of_mem hs
        exact habandons _ (hup id i s hid (input?_eq_some.mpr ⟨n, hn, hi⟩))
      · exact habandons _ (hstack v (by simp [hv]))
  | case4 g id rest n hn hdead ih => exact ih h hup fun v hv => hstack v (by simp [hv])

theorem WellFormed.pruned (h : g.WellFormed) (stack : List NodeId) :
    Pruned g (g.removeDead stack) fun _ => True :=
  pruned_removeDead g stack h (fun _ _ _ _ _ _ => trivial) fun _ _ _ => trivial

def Idle (g : Graph α) (v : NodeId) : Prop :=
  ∃ f, g.face? v = some f ∧ ¬ f.kind.IsInterface ∧ ∀ u i s, g.input? u i = some s → s.node ≠ v

theorem WellFormed.idle_iff (h : g.WellFormed) {v : NodeId} {n : Node α}
    (hn : g.node? v = some n) : g.Idle v ↔ n.isDead = true := by
  rw [isDead_eq_true]
  constructor
  · rintro ⟨f, hf, hkind, hread⟩
    obtain rfl : n.face = f := Option.some.inj ((face?_eq_some.mpr ⟨n, hn, rfl⟩).symm.trans hf)
    refine ⟨hkind, List.length_eq_zero_iff.mpr (List.eq_nil_iff_forall_not_mem.mpr fun r hr => ?_)⟩
    obtain ⟨w, hw, hrw⟩ := List.mem_flatMap.mp hr
    obtain ⟨index, hindex⟩ := List.getElem?_of_mem hw
    have hmem : r ∈ g.readers ⟨v, index⟩ := by
      rw [readers, hn]
      simpa [Node.readers, hindex] using hrw
    exact hread _ _ _ (h.mem_readers.mp hmem) rfl
  · rintro ⟨hkind, hcount⟩
    exact ⟨n.face, face?_eq_some.mpr ⟨n, hn, rfl⟩, hkind,
      fun _ _ _ hi => h.not_read_of_readerCount hn hcount hi⟩

theorem removeDead_gone (h : g.WellFormed) {id : NodeId} {n : Node α} (hn : g.node? id = some n)
    (hkind : ¬ n.kind.IsInterface) (hread : ∀ v i s, g.input? v i = some s → s.node ≠ id) :
    (g.removeDead [id]).node? id = none := by
  have hdead : n.isDead = true :=
    (h.idle_iff hn).mp ⟨n.face, face?_eq_some.mpr ⟨n, hn, rfl⟩, hkind, hread⟩
  have hsize : id < (g.detach id n).nodes.size := by
    rw [size_detach]
    exact lt_size_of_node? hn
  have hlater := (follows_removeDead (g.detach id n) n.producers.reverse
    ⟨(pruned_detach (p := fun _ => True) h hn hdead trivial).wellFormed, .refl _⟩).2
  have hgone := hlater.dead id hsize (by simp [isLive_detach])
  rw [removeDead]
  split
  · next hnone => rw [hn] at hnone; cases hnone
  · next m hm =>
    obtain rfl : n = m := Option.some.inj (hn.symm.trans hm)
    rw [if_pos hdead, List.append_nil]
    simpa [isLive] using hgone

theorem removeDead_tidy (g : Graph α) (stack : List NodeId) (h : g.WellFormed)
    (touched : NodeId → Prop) (hstack : ∀ v, touched v → g.Idle v → v ∈ stack) :
    (∀ v, touched v → ¬ (g.removeDead stack).Idle v) ∧
      ∀ v f, g.face? v = some f → (g.removeDead stack).face? v = none →
        ∀ s ∈ f.inputs, ¬ (g.removeDead stack).Idle s.node := by
  -- The stack has all touched nodes that are idle. What a removed node read counts as touched from
  -- then on.
  fun_induction removeDead g stack generalizing touched with
  | case1 g =>
    refine ⟨fun v hv hidle => absurd (hstack v hv hidle) List.not_mem_nil, fun v f hf hnone => ?_⟩
    rw [hf] at hnone
    cases hnone
  | case2 g id rest hn ih =>
    refine ih h touched fun v hv hidle => ?_
    rcases List.mem_cons.mp (hstack v hv hidle) with rfl | hrest
    · obtain ⟨f, hf, -⟩ := hidle
      simp [face?, hn] at hf
    · exact hrest
  | case3 g id rest n hn hdead ih =>
    have hdetach := (pruned_detach (p := fun _ => True) h hn hdead trivial).wellFormed
    have hidle : ∀ v, (g.detach id n).Idle v → v ∉ n.producers → g.Idle v := by
      rintro v ⟨f, hf, hkind, hread⟩ hproducer
      rw [face?_detach] at hf
      split at hf
      · cases hf
      · refine ⟨f, hf, hkind, fun u i s hi hs => ?_⟩
        by_cases hu : u = id
        · obtain ⟨m, hm, hmi⟩ := input?_eq_some.mp hi
          rw [hu, hn, Option.some.injEq] at hm
          subst hm
          exact hproducer (List.mem_map.mpr ⟨s, List.mem_of_getElem? hmi, hs⟩)
        · exact hread u i s (by rw [input?_detach, if_neg hu, hi]) hs
    obtain ⟨htouched, hremoved⟩ := ih hdetach (fun v => touched v ∨ v ∈ n.producers) (by
      intro v hv hv'
      rw [List.mem_append, List.mem_reverse]
      by_cases hproducer : v ∈ n.producers
      · exact .inl hproducer
      · refine .inr ?_
        have hmem := hstack v (hv.resolve_right hproducer) (hidle v hv' hproducer)
        refine (List.mem_cons.mp hmem).resolve_left ?_
        rintro rfl
        obtain ⟨f, hf, -⟩ := hv'
        simp [face?_detach] at hf)
    refine ⟨fun v hv => htouched v (.inl hv), fun v f hf hnone s hs => ?_⟩
    by_cases hv : v = id
    · subst hv
      obtain rfl : n.face = f := Option.some.inj ((face?_eq_some.mpr ⟨n, hn, rfl⟩).symm.trans hf)
      exact htouched s.node (.inr (List.mem_map.mpr ⟨s, hs, rfl⟩))
    · exact hremoved v f (by rw [face?_detach, if_neg hv, hf]) hnone s hs
  | case4 g id rest n hn hdead ih =>
    refine ih h touched fun v hv hidle => ?_
    rcases List.mem_cons.mp (hstack v hv hidle) with rfl | hrest
    · exact absurd ((h.idle_iff hn).mp hidle) hdead
    · exact hrest

theorem redirect_cons (f : Face α) (v : NodeId) (slot : Slot) (slots : List Slot) (source : Slot) :
    (f.redirect v [slot] source).redirect v slots source = f.redirect v (slot :: slots) source := by
  have hinputs : ((f.redirect v [slot] source).redirect v slots source).inputs =
      (f.redirect v (slot :: slots) source).inputs := by
    refine List.ext_getElem? fun i => ?_
    rw [Face.input_redirect, Face.input_redirect, Face.input_redirect, Option.map_map]
    congr 1
    funext s
    by_cases hslot : (⟨v, i⟩ : Slot) = slot <;> by_cases hmem : (⟨v, i⟩ : Slot) ∈ slots <;>
      simp [hslot, hmem]
  exact congrArg (Face.mk f.op · f.ports f.relaxed) hinputs

theorem rewire_ok (h : g.WellFormed) {slots : List Slot} {source : Slot}
    (hslots : ∀ r ∈ slots, (g.input? r.node r.index).isSome) (hs : (g.port? source).isSome) :
    ∃ g', exec (rewire slots source : Edit α GraphError Unit) g = .ok (.ok (), g') ∧
      Recast g g' fun v f => f.redirect v slots source := by
  induction slots generalizing g with
  | nil =>
    refine ⟨g, rfl, (Recast.refl h).congr fun v f _ => ?_⟩
    rw [Face.redirect_of_not_mem (by simp)]
  | cons slot slots ih =>
    obtain ⟨g₁, hset, h₁⟩ := setInput_ok h (hslots slot List.mem_cons_self) hs
    have hslots₁ : ∀ r ∈ slots, (g₁.input? r.node r.index).isSome := by
      intro r hr
      have hold := hslots r (List.mem_cons_of_mem _ hr)
      rw [input?_eq_face] at hold ⊢
      rw [h₁.face]
      cases hf : g.face? r.node with
      | none => simp [hf] at hold
      | some f =>
        rw [hf, Option.bind_some] at hold
        rw [Option.map_some, Option.bind_some, Face.input_redirect, Option.isSome_map]
        exact hold
    obtain ⟨g₂, hrest, h₂⟩ := ih h₁.wellFormed hslots₁ (by rwa [h₁.port (fun _ _ => rfl)])
    refine ⟨g₂, ?_, (h₁.trans h₂).congr fun v f _ => redirect_cons f v slot slots source⟩
    rw [rewire, List.forM, exec_bind_ok (by rw [Edit.exec_step, hset])]
    exact hrest

theorem redirect_readers (h : g.WellFormed) {old new : NodeId} {index : Nat} {v : NodeId}
    {f : Face α} (hf : g.face? v = some f) :
    f.redirect v ((g.readers ⟨old, index⟩).filter (·.node ≠ new)) ⟨new, index⟩ =
      f.substitute v old new [index] := by
  rw [Face.substitute]
  split
  · next hv => exact Face.redirect_of_not_mem (by simp [hv])
  · next hv =>
    refine congrArg (Face.mk f.op · f.ports f.relaxed) (List.ext_getElem? fun i => ?_)
    rw [List.getElem?_mapIdx, List.getElem?_map]
    cases hi : f.inputs[i]? with
    | none => rfl
    | some s =>
      have hread : (⟨v, i⟩ : Slot) ∈ (g.readers ⟨old, index⟩).filter (·.node ≠ new) ↔
          s.node = old ∧ s.index ∈ [index] := by
        rw [List.mem_filter, h.mem_readers, input?_eq_face, hf, Option.bind_some, hi]
        cases s
        simp [hv]
      rw [Option.map_some, Option.map_some]
      by_cases hs : s.node = old ∧ s.index ∈ [index]
      · rw [if_pos (hread.mpr hs), if_pos hs, List.mem_singleton.mp hs.2]
      · rw [if_neg (fun hm => hs (hread.mp hm)), if_neg hs]

theorem substitute_cons (f : Face α) (v old new : NodeId) (index : Nat) (indices : List Nat) :
    (f.substitute v old new [index]).substitute v old new indices =
      f.substitute v old new (index :: indices) := by
  by_cases hv : v = new
  · simp [Face.substitute, hv]
  · simp only [Face.substitute, if_neg hv]
    refine congrArg (Face.mk f.op · f.ports f.relaxed) ?_
    change (f.inputs.map _).map _ = f.inputs.map _
    rw [List.map_map]
    refine List.map_congr_left fun s _ => ?_
    obtain ⟨u, i⟩ := s
    by_cases hu : u = old <;> by_cases hi : i = index <;> by_cases hn : new = old <;>
      by_cases hm : i ∈ indices <;> simp_all

theorem replaceOutput_ok (h : g.WellFormed) (old new : NodeId) (index : Nat)
    (hnew : (g.port? ⟨new, index⟩).isSome) :
    ∃ g', exec (replaceOutput ⟨old, index⟩ ⟨new, index⟩ : Edit α GraphError Unit) g =
        .ok (.ok (), g') ∧
      Recast g g' fun v f => f.substitute v old new [index] := by
  have hslots : ∀ r ∈ (g.readers ⟨old, index⟩).filter (·.node ≠ new),
      (g.input? r.node r.index).isSome := by
    intro r hr
    rw [h.mem_readers.mp (List.mem_filter.mp hr).1]
    rfl
  obtain ⟨g', hexec, hrecast⟩ := rewire_ok h hslots hnew
  refine ⟨g', ?_, hrecast.congr fun v f hf => redirect_readers h hf⟩
  rw [replaceOutput, exec_bind_ok (Edit.exec_read _ _)]
  exact hexec

theorem ports_substitute (f : Face α) (v old new : NodeId) (indices : List Nat) :
    (f.substitute v old new indices).ports = f.ports := by
  rw [Face.substitute]
  split <;> rfl

theorem replaceOutputs_ok (h : g.WellFormed) (old new : NodeId) (indices : List Nat)
    (hnew : ∀ i ∈ indices, (g.port? ⟨new, i⟩).isSome) :
    ∃ g', exec (indices.forM fun i => replaceOutput ⟨old, i⟩ ⟨new, i⟩ :
        Edit α GraphError Unit) g = .ok (.ok (), g') ∧
      Recast g g' fun v f => f.substitute v old new indices := by
  induction indices generalizing g with
  | nil =>
    refine ⟨g, rfl, (Recast.refl h).congr fun v f _ => ?_⟩
    simp [Face.substitute, Face.mapInputs]
  | cons index indices ih =>
    obtain ⟨g₁, hexec₁, h₁⟩ := replaceOutput_ok h old new index (hnew index List.mem_cons_self)
    obtain ⟨g₂, hexec₂, h₂⟩ := ih h₁.wellFormed fun i hi => by
      rw [h₁.port fun v f => ports_substitute f v old new _]
      exact hnew i (List.mem_cons_of_mem _ hi)
    refine ⟨g₂, ?_, (h₁.trans h₂).congr fun v f _ => substitute_cons f v old new index indices⟩
    rw [List.forM, exec_bind_ok hexec₁]
    exact hexec₂

structure Replaced (g g' : Graph α) (old new : NodeId) (p : NodeId → Prop) : Prop where
  wellFormed : g'.WellFormed
  size : g'.nodes.size = g.nodes.size
  node (v : NodeId) :
    g'.face? v = (g.face? v).map (·.replace v old new) ∨ p v ∧ g'.face? v = none
  interface (v : NodeId) (f : Face α) : g.face? v = some f → f.kind.IsInterface →
    g'.face? v = some (f.replace v old new)
  name (v : NodeId) : v ≠ new → g'.isLive v = true → g'.name? v = g.name? v
  gone (f f' : Face α) : g.face? old = some f → ¬ f.kind.IsInterface → g.face? new = some f' →
    (∀ s ∈ f'.inputs, s.node ≠ old) → g'.face? old = none ∧ g'.name? new = g.name? old
  tidy (v : NodeId) (f : Face α) : g.face? v = some f → g'.face? v = none →
    ∀ s ∈ (f.replace v old new).inputs, ¬ g'.Idle s.node
  entries (e : AttributeKey × Attribute) : e ∈ g'.attributes.entries →
    (e ∈ g.attributes.entries ∨ e.1.target.owner = new ∧
      ∃ e' ∈ g.attributes.entries, e'.1.target.owner = old ∧ e'.2 = e.2) ∧
    g'.face? e.1.target.owner = (g.face? e.1.target.owner).map (·.replace e.1.target.owner old new)

theorem Pruned.free {p : NodeId → Prop} (h : Pruned g g' p) (hg : g.WellFormed) {id : NodeId}
    {name : String} (hname : g.name? id = some name) (hgone : g'.node? id = none) :
    g'.nodeByName? name = none := by
  refine Option.eq_none_iff_forall_ne_some.mpr fun owner howner => ?_
  have hn := (h.wellFormed.index name owner).mp howner
  have hold : g.name? owner = some name := by
    rcases h.node owner with ⟨-, hkept⟩ | ⟨-, hface⟩
    · exact hkept ▸ hn
    · rw [face?, Option.map_eq_none_iff] at hface
      simp [name?, hface] at hn
  have hsame : owner = id := hg.eq_of_name hold hname
  simp [name?, hsame, hgone] at hn

theorem rename_ok (h : g.WellFormed) {id : NodeId} {name : String} (hid : g.isLive id = true)
    (hfree : g.nodeByName? name = none) :
    ∃ g', g.rename id name = (.ok (), g') ∧ g'.WellFormed ∧ g'.nodes.size = g.nodes.size ∧
      (∀ v, g'.face? v = g.face? v) ∧
      (∀ v, g'.name? v = if v = id then some name else g.name? v) ∧
      g'.attributes = g.attributes := by
  obtain ⟨n, hn⟩ := Option.isSome_iff_exists.mp hid
  refine ⟨g.setName id n.name name, ?_, h.setName hn hfree, size_modifyNode ..,
    face?_setName g id n.name name, name?_setName hn n.name name, rfl⟩
  rw [rename, hfree]
  dsimp only
  rw [Update.on_bind_ok (on_node hn)]
  rfl

theorem rename_done (h : g.WellFormed) {id : NodeId} {name : String}
    (hrun : g.rename id name = (.ok (), g')) :
    g'.WellFormed ∧ g'.nodes.size = g.nodes.size ∧ (∀ v, g'.face? v = g.face? v) ∧
      g'.attributes = g.attributes := by
  rcases rename_cases g id name with ⟨e, he⟩ | ⟨-, hok⟩ | ⟨n, hn, hfree, -⟩
  · cases he.symm.trans hrun
  · cases hok.symm.trans hrun
    exact ⟨h, rfl, fun _ => rfl, rfl⟩
  · obtain ⟨g₁, hok, hwf, hsize, hface, -, hattributes⟩ :=
      rename_ok h (by rw [isLive, hn]; rfl) hfree
    cases hok.symm.trans hrun
    exact ⟨hwf, hsize, hface, hattributes⟩

theorem exec_ofExcept_node {id : NodeId} {n : Node α} (h : g.node? id = some n) :
    exec (Edit.ofExcept (·.node id) : Edit α GraphError (Node α)) g = .ok (.ok n, g) := by
  rw [Edit.exec_ofExcept, node_eq_ok.mpr h]

theorem exec_ofExcept_node_eq_ok {id : NodeId} {n : Node α} :
    exec (Edit.ofExcept (·.node id) : Edit α GraphError (Node α)) g = .ok (.ok n, g') ↔
      g.node? id = some n ∧ g' = g := by
  rw [Edit.exec_ofExcept, Except.ok.injEq, Prod.mk.injEq, node_eq_ok, eq_comm (a := g)]

theorem WellFormed.substitute_eq_replace (h : g.WellFormed) {old : NodeId} {n : Node α}
    (hn : g.node? old = some n) {v : NodeId} {f : Face α} (hf : g.face? v = some f) (new : NodeId) :
    f.substitute v old new (List.range n.outputs.length) = f.replace v old new := by
  rw [Face.substitute, Face.replace]
  split
  · rfl
  · refine congrArg (Face.mk f.op · f.ports f.relaxed) (List.map_congr_left fun s hs => ?_)
    obtain ⟨i, hi⟩ := List.getElem?_of_mem hs
    have hread : g.input? v i = some s := by rw [input?_eq_face, hf]; exact hi
    by_cases hso : s.node = old
    · obtain ⟨w, hw⟩ := Option.isSome_iff_exists.mp (h.wire_of_input hread)
      obtain ⟨m, hm, hout⟩ := wire?_eq_some.mp hw
      rw [hso, hn, Option.some.injEq] at hm
      subst hm
      have hlt := (List.getElem?_eq_some_iff.mp hout).1
      simp [hso, hlt]
    · simp [hso]

def Encloses (g : Graph α) (old new : NodeId) (p : NodeId → Prop) : Prop :=
  ∀ v k, g.face? v = some k → p v → ∀ s ∈ (k.replace v old new).inputs,
    (∀ u l, g.face? u = some l → ∀ t ∈ (l.replace u old new).inputs, t.node = s.node → p u) →
      p s.node

section Substitution

variable {old new : NodeId} (hface : ∀ v, g'.face? v = (g.face? v).map (·.replace v old new))

include hface

theorem input_of_replace {v : NodeId} {i : Nat} {s : Slot} (hi : g'.input? v i = some s) :
    ∃ k, g.face? v = some k ∧ s ∈ (k.replace v old new).inputs := by
  rw [input?_eq_face, hface] at hi
  obtain ⟨_, hreplaced, hs⟩ := Option.bind_eq_some_iff.mp hi
  obtain ⟨k, hk, rfl⟩ := Option.map_eq_some_iff.mp hreplaced
  exact ⟨k, hk, List.mem_of_getElem? hs⟩

theorem not_read_of_replace (hne : new ≠ old)
    (hother : ∀ f, g.face? new = some f → ∀ s ∈ f.inputs, s.node ≠ old) {v : NodeId} {i : Nat}
    {s : Slot} (hi : g'.input? v i = some s) : s.node ≠ old := by
  obtain ⟨k, hk, hmem⟩ := input_of_replace hface hi
  rw [Face.replace] at hmem
  split at hmem
  · next hv => exact hother k (hv ▸ hk) s hmem
  · obtain ⟨t, -, rfl⟩ := List.mem_map.mp hmem
    by_cases ht : t.node = old
    · rwa [if_pos ht]
    · rwa [if_neg ht]

theorem pruned_of_replace (h : g'.WellFormed) {p : NodeId → Prop} (hp : p old)
    (hup : g.Encloses old new p) : Pruned g' (g'.removeDead [old]) p := by
  refine pruned_removeDead g' [old] h (fun v i s hv hi hread => ?_) ?_
  · obtain ⟨k, hk, hs⟩ := input_of_replace hface hi
    refine hup v k hk hv s hs fun u l hl t ht => ?_
    obtain ⟨j, hj⟩ := List.getElem?_of_mem ht
    have hinput : g'.input? u j = some t := by
      rw [input?_eq_face, hface, hl]
      exact hj
    exact hread u j t hinput
  · intro v hv _
    rw [List.mem_singleton.mp hv]
    exact hp

theorem gone_of_replace (h : g'.WellFormed) (hne : new ≠ old) {f : Face α}
    (hold : g.face? old = some f) (hkind : ¬ f.kind.IsInterface)
    (hother : ∀ f, g.face? new = some f → ∀ s ∈ f.inputs, s.node ≠ old) :
    (g'.removeDead [old]).node? old = none := by
  obtain ⟨m, hm, hmface⟩ :=
    face?_eq_some.mp ((hface old).trans (congrArg (Option.map _) hold))
  have hmkind : m.kind = f.kind := congrArg Op.kind
    ((congrArg Face.op hmface).trans (Face.op_replace ..))
  exact removeDead_gone h hm (hmkind ▸ hkind) fun v i s hi =>
    not_read_of_replace hface hne hother hi

end Substitution

theorem takeName_ok (h : g.WellFormed) {old new : NodeId} {name : String}
    (hlive : g.isLive new = true) (hfree : g.node? old = none → g.nodeByName? name = none) :
    ∃ g', exec (do
        if (← Edit.read (·.node? old)).isNone then
          Edit.step (·.rename new name) : Edit α GraphError Unit) g = .ok (.ok (), g') ∧
      g'.WellFormed ∧ g'.nodes.size = g.nodes.size ∧ (∀ v, g'.face? v = g.face? v) ∧
      (∀ v, g'.name? v = if v = new ∧ g.node? old = none then some name else g.name? v) ∧
      g'.attributes = g.attributes := by
  rw [exec_bind_ok (Edit.exec_read _ _)]
  cases hgone : g.node? old with
  | some n => exact ⟨g, rfl, h, rfl, fun _ => rfl, fun _ => by simp, rfl⟩
  | none =>
    obtain ⟨g', hok, hwf, hsize, hface, hnames, hattributes⟩ := rename_ok h hlive (hfree hgone)
    refine ⟨g', ?_, hwf, hsize, hface, fun v => ?_, hattributes⟩
    · simp [hok]
    · rw [hnames]
      simp

theorem takeName_done (h : g.WellFormed) {old new : NodeId} {name : String}
    (hrun : exec (do
        if (← Edit.read (·.node? old)).isNone then
          Edit.step (·.rename new name) : Edit α GraphError Unit) g = .ok (.ok (), g')) :
    g'.WellFormed ∧ g'.nodes.size = g.nodes.size ∧ (∀ v, g'.face? v = g.face? v) ∧
      g'.attributes = g.attributes := by
  rw [exec_bind_ok (Edit.exec_read _ _)] at hrun
  split at hrun
  · rw [Edit.exec_step, Except.ok.injEq] at hrun
    exact rename_done h hrun
  · cases hrun
    exact ⟨h, rfl, fun _ => rfl, rfl⟩

theorem replaceNode_ok (h : g.WellFormed) {old new : NodeId} {f f' : Face α}
    (hold : g.face? old = some f) (hnew : g.face? new = some f')
    (hports : f.ports.length = f'.ports.length) {p : NodeId → Prop} (hp : p old) (hnp : ¬ p new)
    (hup : g.Encloses old new p) :
    ∃ g', exec (replaceNode old new : Edit α GraphError Unit) g = .ok (.ok (), g') ∧
      Replaced g g' old new p := by
  obtain ⟨oldNode, hon, rfl⟩ := face?_eq_some.mp hold
  obtain ⟨newNode, hnn, rfl⟩ := face?_eq_some.mp hnew
  have hlength : oldNode.outputs.length = newNode.outputs.length := by
    simpa [Node.face] using hports
  have hne : new ≠ old := fun heq => hnp (heq ▸ hp)
  -- The three changes one after the other: slots and attributes (`g₂`), the dead cone, the name.
  obtain ⟨g₁, hexec₁, h₁⟩ := replaceOutputs_ok h old new (List.range oldNode.outputs.length)
    fun i hi => by
      rw [List.mem_range, hlength] at hi
      simp [port?_eq_face, hnew, Node.face, hi]
  let g₂ : Graph α := { g₁ with attributes := g₁.attributes.copyNode old new }
  have h₂ : g₂.WellFormed :=
    h₁.wellFormed.of_attributes _
  have hface₂ : ∀ v, g₂.face? v = (g.face? v).map (·.replace v old new) := fun v =>
    (h₁.face v).trans (Option.map_congr fun k hk => h.substitute_eq_replace hon hk new)
  have hname₂ : ∀ v, g₂.name? v = g.name? v := h₁.name h
  have hpruned : Pruned g₂ (g₂.removeDead [old]) p := pruned_of_replace hface₂ h₂ hp hup
  have htidy := (removeDead_tidy g₂ [old] h₂ (fun _ => False) fun _ => False.elim).2
  have hlive : (g₂.removeDead [old]).isLive new = true := by
    rw [isLive_eq_face, hpruned.face_of_not hnp, hface₂, hnew]
    rfl
  have hname : g₂.name? old = some oldNode.name := by
    rw [hname₂, name?, hon]
    rfl
  obtain ⟨g', hexec, hwf, hsize, hface, hnames, hattributes⟩ :=
    takeName_ok hpruned.wellFormed hlive fun hgone => hpruned.free h₂ hname hgone
  refine ⟨g', ?run, {
    wellFormed := hwf
    size := ?size
    node := fun v => ?node
    interface := fun v k hv hk => ?interface
    name := fun v hv hlive => ?name
    gone := fun k k' hk hkind hk' hother => ?gone
    tidy := fun v k hk hdead s hs hidle => ?tidy
    entries := fun e he => ?entries }⟩
  case run =>
    rw [replaceNode, exec_bind_ok (exec_ofExcept_node hon),
      exec_bind_ok (exec_ofExcept_node hnn)]
    simp only [hlength, ne_eq, not_true_eq_false, ↓reduceIte]
    rw [← hlength]
    exact (exec_bind_ok hexec₁ _).trans ((exec_bind_ok (Edit.exec_change _ _) _).trans
      ((exec_bind_ok (Edit.exec_change _ _) _).trans hexec))
  case size =>
    rw [hsize, hpruned.size]
    exact h₁.size
  case node =>
    rw [hface]
    rcases hpruned.node v with ⟨hv, -⟩ | hgone
    · exact .inl (hv.trans (hface₂ v))
    · exact .inr hgone
  case interface =>
    rw [hface]
    refine hpruned.interface v _ ((hface₂ v).trans (by rw [hv]; rfl)) ?_
    rwa [Face.kind, Face.op_replace]
  case name =>
    rw [hnames, if_neg fun hnew => hv hnew.1]
    rcases hpruned.node v with ⟨-, hkept⟩ | ⟨-, hdead⟩
    · exact hkept.trans (hname₂ v)
    · rw [isLive_eq_face, hface, hdead] at hlive
      cases hlive
  case gone =>
    have hdead := gone_of_replace hface₂ h₂ hne hk hkind fun l hl =>
      Option.some.inj (hk'.symm.trans hl) ▸ hother
    refine ⟨by rw [hface, face?, hdead]; rfl, ?_⟩
    rw [hnames, if_pos ⟨rfl, hdead⟩, name?, hon]
    rfl
  case tidy =>
    refine htidy v _ ((hface₂ v).trans (by rw [hk]; rfl)) (hface v ▸ hdead) s hs ?_
    obtain ⟨l, hl, hkind, hread⟩ := hidle
    refine ⟨l, hface s.node ▸ hl, hkind, fun u i r hi => hread u i r ?_⟩
    rwa [input?_eq_face, hface, ← input?_eq_face]
  case entries =>
    rw [hattributes] at he
    obtain ⟨hmem, hkept⟩ := hpruned.entries e he
    refine ⟨?_, ?_⟩
    · have hcopied := AttributeStore.mem_copyNode hmem
      rwa [h₁.attributes] at hcopied
    · rw [hface, hkept]
      exact hface₂ _

def OnlyReadBy (g : Graph α) (v reader : NodeId) : Prop :=
  ∀ u i s, g.input? u i = some s → s.node = v → u = reader

theorem onlyReadBy_of_count (h : g.WellFormed) {v u : NodeId} {n : Node α}
    (hn : g.node? v = some n) (hcount : n.readerCount = 1) {i : Nat} {s : Slot}
    (hi : g.input? u i = some s) (hs : s.node = v) : g.OnlyReadBy v u := by
  obtain ⟨r, hr⟩ := List.length_eq_one_iff.mp hcount
  have hmem : ∀ u i s, g.input? u i = some s → s.node = v → (⟨u, i⟩ : Slot) = r := by
    rintro u i s hi rfl
    rw [← List.mem_singleton, ← hr]
    obtain ⟨w, hw⟩ := Option.isSome_iff_exists.mp (h.wire_of_input hi)
    obtain ⟨m, hm, hout⟩ := wire?_eq_some.mp hw
    obtain rfl : n = m := Option.some.inj (hn.symm.trans hm)
    refine List.mem_flatMap.mpr ⟨w, List.mem_of_getElem? hout, ?_⟩
    have hread := h.mem_readers.mpr (show g.input? (⟨u, i⟩ : Slot).node _ = _ from hi)
    rwa [readers_eq, hw] at hread
  intro u' i' s' hi' hs'
  exact congrArg Slot.node ((hmem u' i' s' hi' hs').trans (hmem u i s hi hs).symm)

theorem OnlyReadBy.extends {v reader : NodeId} (h : g.OnlyReadBy v reader) {q : Slot → Prop}
    (h' : g.Extends g' q) (hv : v < g.nodes.size) (hq : ∀ s, q s → s.node ≠ v) :
    g'.OnlyReadBy v reader := by
  intro u i s hi hs
  rw [input?_eq_face] at hi
  obtain ⟨f, hf, hmem⟩ := Option.bind_eq_some_iff.mp hi
  rcases Nat.lt_or_ge u g.nodes.size with hlt | hge
  · refine h u i s ?_ hs
    rw [input?_eq_face, ← h'.old u hlt, hf]
    exact hmem
  · have hread := (h'.inputs u f hge hf s (List.mem_of_getElem? hmem)).1 (hs ▸ hv)
    exact absurd hs (hq s hread)

theorem Replaced.gone_behind {old new v reader : NodeId} {p : NodeId → Prop}
    (h : Replaced g g' old new p) {f k : Face α} (hf : g.face? reader = some f)
    (hgone : g'.face? reader = none) {s : Slot} (hs : s ∈ f.inputs) (hsv : s.node = v)
    (hk : g.face? v = some k) (hkind : ¬ k.kind.IsInterface) (hold : v ≠ old) (hnew : v ≠ new)
    (honly : g.OnlyReadBy v reader) : g'.face? v = none := by
  rcases h.node v with hkept | ⟨-, hnone⟩
  rotate_left
  · exact hnone
  have hstill : s ∈ (f.replace reader old new).inputs := by
    rw [Face.replace]
    split
    · exact hs
    · exact List.mem_map.mpr ⟨s, hs, if_neg (hsv ▸ hold)⟩
  -- What a removed node read is not left idle. If `v` stayed, no slot would read it any more.
  refine absurd ?_ (h.tidy reader f hf hgone s hstill)
  rw [hsv]
  refine ⟨k.replace v old new, by rw [hkept, hk, Option.map_some], ?_, fun u i t hi htv => ?_⟩
  · rwa [Face.kind, Face.op_replace]
  · rw [input?_eq_face] at hi
    obtain ⟨l', hl', ht⟩ := Option.bind_eq_some_iff.mp hi
    rcases h.node u with hu | ⟨-, hu⟩
    · rw [hu] at hl'
      obtain ⟨l, hl, rfl⟩ := Option.map_eq_some_iff.mp hl'
      have hread : ∃ r ∈ l.inputs, r.node = v := by
        have hmem := List.mem_of_getElem? ht
        rw [Face.replace] at hmem
        split at hmem
        · exact ⟨t, hmem, htv⟩
        · obtain ⟨r, hr, rfl⟩ := List.mem_map.mp hmem
          refine ⟨r, hr, ?_⟩
          by_cases hro : r.node = old
          · rw [if_pos hro] at htv
            exact absurd htv.symm hnew
          · rwa [if_neg hro] at htv
      obtain ⟨r, hr, hrv⟩ := hread
      obtain ⟨j, hj⟩ := List.getElem?_of_mem hr
      obtain rfl := honly u j r (by rw [input?_eq_face, hl]; exact hj) hrv
      rw [hgone] at hu
      rw [hl] at hu
      cases hu
    · rw [hu] at hl'
      cases hl'

theorem ports_of_replaceNode {old new : NodeId} {f f' : Face α} (hold : g.face? old = some f)
    (hnew : g.face? new = some f')
    (h : exec (replaceNode old new : Edit α GraphError Unit) g = .ok (.ok (), g')) :
    f.ports.length = f'.ports.length := by
  obtain ⟨m, hm, rfl⟩ := face?_eq_some.mp hold
  obtain ⟨n, hn, rfl⟩ := face?_eq_some.mp hnew
  rw [replaceNode, exec_bind_ok (exec_ofExcept_node hm), exec_bind_ok (exec_ofExcept_node hn)] at h
  have hlength : m.outputs.length = n.outputs.length := by
    by_contra hne
    simp only [ne_eq, hne, not_false_eq_true, ↓reduceIte] at h
    rw [exec_bind_error (exec_throw _ _)] at h
    cases h
  simpa [Node.face] using hlength

end Graph

end LowPrecision
