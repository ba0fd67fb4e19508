import LowPrecision.Proofs.Graph.Replacement

namespace LowPrecision

namespace Graph

variable {α : Type} {g g' : Graph α} {rank : NodeId → Nat}

def Ranked (g : Graph α) (rank : NodeId → Nat) : Prop :=
  ∀ v i s, g.input? v i = some s → rank s.node < rank v

def Acyclic (g : Graph α) : Prop := ∃ rank, Ranked g rank

theorem ranked_iff_face :
    Ranked g rank ↔ ∀ v f, g.face? v = some f → ∀ s ∈ f.inputs, rank s.node < rank v := by
  constructor
  · intro h v f hf s hs
    obtain ⟨i, hi⟩ := List.getElem?_of_mem hs
    exact h v i s (by rw [input?_eq_face, hf]; exact hi)
  · intro h v i s hi
    rw [input?_eq_face] at hi
    obtain ⟨f, hf, hs⟩ := Option.bind_eq_some_iff.mp hi
    exact h v f hf s (List.mem_of_getElem? hs)

def makeRoom (size count base : Nat) (rank : Nat → Nat) (v : Nat) : Nat :=
  if v < size then if rank v ≤ base then rank v else rank v + count else base + 1 + (v - size)

section MakeRoom

variable {size count base v : Nat}

theorem makeRoom_low (hv : v < size) (hle : rank v ≤ base) :
    makeRoom size count base rank v = rank v := by
  rw [makeRoom, if_pos hv, if_pos hle]

theorem makeRoom_high (hv : v < size) (hlt : base < rank v) :
    makeRoom size count base rank v = rank v + count := by
  rw [makeRoom, if_pos hv, if_neg (Nat.not_le.mpr hlt)]

theorem makeRoom_new (hv : size ≤ v) : makeRoom size count base rank v = base + 1 + (v - size) :=
  if_neg (Nat.not_lt.mpr hv)

theorem makeRoom_base_lt {u : Nat} (hu : u < size) (hv : size ≤ v) :
    makeRoom size count (rank u) rank u < makeRoom size count (rank u) rank v := by
  rw [makeRoom_low hu (Nat.le_refl _), makeRoom_new hv]
  omega

theorem makeRoom_new_le (hv : size ≤ v) (hcount : v < size + count) :
    makeRoom size count base rank v ≤ base + count := by
  rw [makeRoom_new hv]
  omega

theorem makeRoom_lt {u : Nat} (hu : u < size) (hv : v < size) (hlt : rank u < rank v) :
    makeRoom size count base rank u < makeRoom size count base rank v := by
  rw [makeRoom, makeRoom, if_pos hu, if_pos hv]
  split <;> split <;> omega

theorem lt_of_makeRoom_lt {u : Nat} (hu : u < size) (hv : v < size)
    (hlt : makeRoom size count base rank u < makeRoom size count base rank v) :
    rank u < rank v := by
  rw [makeRoom, makeRoom, if_pos hu, if_pos hv] at hlt
  split at hlt <;> split at hlt <;> omega

theorem makeRoom_new_lt {u : Nat} (hu : size ≤ u) (hcount : u < size + count) (hv : v < size)
    (hlt : base < rank v) :
    makeRoom size count base rank u < makeRoom size count base rank v := by
  have hle : makeRoom size count base rank u ≤ base + count := makeRoom_new_le hu hcount
  rw [makeRoom_high hv hlt]
  omega

end MakeRoom

theorem Ranked.room (hr : Ranked g rank) (hg : g.WellFormed) (count base : Nat) :
    Ranked g (makeRoom g.nodes.size count base rank) := by
  rw [ranked_iff_face] at hr ⊢
  exact fun v f hf s hs => makeRoom_lt (hg.lt_size_of_input hf hs) (lt_size_of_face? hf)
    (hr v f hf s hs)

theorem Extends.ranked_room {p : Slot → Prop} {size count base : Nat} (h : Extends g g' p)
    (hsize : size ≤ g.nodes.size) (hr : Ranked g (makeRoom size count base rank))
    (hp : ∀ s, p s → s.node < size → rank s.node ≤ base) :
    Ranked g' (makeRoom size count base rank) := by
  rw [ranked_iff_face] at hr ⊢
  intro v f hf s hs
  rcases Nat.lt_or_ge v g.nodes.size with hlt | hge
  · exact hr v f (h.old v hlt ▸ hf) s hs
  · obtain ⟨hread, hbefore⟩ := h.inputs v f hge hf s hs
    have hv : size ≤ v := Nat.le_trans hsize hge
    rw [makeRoom_new hv]
    rcases Nat.lt_or_ge s.node size with hlt | hge'
    · have hle := hp s (hread (Nat.lt_of_lt_of_le hlt hsize)) hlt
      rw [makeRoom_low hlt hle]
      omega
    · rw [makeRoom_new hge']
      exact Nat.add_lt_add_left (Nat.sub_lt_sub_right hge' hbefore) _

theorem Extends.ranked {p : Slot → Prop} (h : Extends g g' p) (hg : g.WellFormed)
    (hr : Ranked g rank) (count base : Nat) (hp : ∀ s, p s → rank s.node ≤ base) :
    Ranked g' (makeRoom g.nodes.size count base rank) :=
  h.ranked_room (Nat.le_refl _) (hr.room hg count base) fun s hs _ => hp s hs

theorem Recast.ranked {slots : List Slot} {source : Slot}
    (h : Recast g g' fun v f => f.redirect v slots source) (hr : Ranked g rank)
    (hslots : ∀ r ∈ slots, rank source.node < rank r.node) : Ranked g' rank := by
  intro v i s hi
  rw [input?_eq_face, h.face] at hi
  obtain ⟨f', hf', hs⟩ := Option.bind_eq_some_iff.mp hi
  obtain ⟨f, hf, rfl⟩ := Option.map_eq_some_iff.mp hf'
  rw [Face.input_redirect] at hs
  obtain ⟨s', hs', rfl⟩ := Option.map_eq_some_iff.mp hs
  split
  · next hmem => exact hslots _ hmem
  · exact hr v i s' (by rw [input?_eq_face, hf]; exact hs')

def Exposed (g : Graph α) (rank : NodeId → Nat) (old v : NodeId) : Prop :=
  rank v ≤ rank old ∧ (v = old ∨
    ∀ u f, g.face? u = some f → (∃ s ∈ f.inputs, s.node = v) → rank u ≤ rank old)

theorem replaceNode_ranked (h : g.WellFormed) (hr : Ranked g rank) {old new : NodeId}
    {f f' : Face α} (hold : g.face? old = some f) (hnew : g.face? new = some f')
    (hports : f.ports.length = f'.ports.length) (hlt : rank old < rank new) :
    ∃ g', exec (replaceNode old new : Edit α GraphError Unit) g = .ok (.ok (), g') ∧
      Replaced g g' old new (g.Exposed rank old) := by
  refine replaceNode_ok h hold hnew hports ⟨Nat.le_refl _, .inl rfl⟩
    (fun hnp => Nat.not_le.mpr hlt hnp.1) fun v k hk hv s hs hall => ?_
  have hrank := ranked_iff_face.mp hr
  have hne : v ≠ new := fun he => Nat.not_le.mpr hlt (he ▸ hv.1)
  rw [Face.replace, if_neg hne] at hs
  obtain ⟨t, ht, hts⟩ := List.mem_map.mp hs
  have hbelow : rank t.node < rank old := Nat.lt_of_lt_of_le (hrank v k hk t ht) hv.1
  have hnode : t.node ≠ old := fun he => Nat.lt_irrefl _ (he ▸ hbelow)
  rw [if_neg hnode] at hts
  subst hts
  refine ⟨Nat.le_of_lt hbelow, .inr ?_⟩
  rintro u l hl ⟨r, hr, hrt⟩
  refine (hall u l hl r ?_ hrt).1
  rw [Face.replace]
  split
  · exact hr
  · exact List.mem_map.mpr ⟨r, hr, if_neg (hrt ▸ hnode)⟩

def assemble (nodes : List (String × Op α × List Slot × List Port)) : Graph α :=
  nodes.foldl (fun g (name, op, inputs, ports) => (g.addNode name op inputs ports).2) empty

theorem addNode_ordered (h : g.WellFormed) (hr : Ranked g fun v => v) (name : String) (op : Op α)
    (inputs : List Slot) (outputs : List Port) :
    (g.addNode name op inputs outputs).2.WellFormed ∧
      Ranked (g.addNode name op inputs outputs).2 fun v => v := by
  refine ⟨(sound_addNode h name op inputs outputs).wellFormed, ?_⟩
  rcases addNode_cases g name op inputs outputs with ⟨e, he⟩ | ⟨-, hin, hok⟩
  · rw [he]
    exact hr
  · rw [hok]
    intro v i s hi
    rw [input?_push, size_attach, input?_attach] at hi
    split at hi
    · next hv =>
      obtain ⟨w, hw⟩ := Option.isSome_iff_exists.mp (hin s (List.mem_of_getElem? hi))
      obtain ⟨n, hn, -⟩ := wire?_eq_some.mp hw
      exact hv ▸ lt_size_of_node? hn
    · exact hr v i s hi

theorem assemble_ordered (nodes : List (String × Op α × List Slot × List Port)) :
    (assemble nodes).WellFormed ∧ Ranked (assemble nodes) fun v => v := by
  have hempty : Ranked (empty : Graph α) fun v => v := by
    intro v i s hi
    simp [input?, node?, empty] at hi
  exact List.foldlRecOn (motive := fun g : Graph α => g.WellFormed ∧ Ranked g fun v => v) nodes _
    ⟨WellFormed.empty, hempty⟩ fun g h node _ =>
      addNode_ordered h.1 h.2 node.1 node.2.1 node.2.2.1 node.2.2.2

theorem assemble_acyclic (nodes : List (String × Op α × List Slot × List Port)) :
    (assemble nodes).Acyclic := ⟨_, (assemble_ordered nodes).2⟩

end Graph

end LowPrecision
