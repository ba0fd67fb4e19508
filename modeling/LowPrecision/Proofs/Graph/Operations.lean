import LowPrecision.Proofs.Graph.Edits

namespace LowPrecision

namespace Graph

variable {α : Type} {g : Graph α}

inductive Operation (α : Type) where
  | addNode (name : String) (op : Op α) (inputs : List Slot) (outputs : List Port)
  | addUniqueNode (base : String) (op : Op α) (inputs : List Slot) (outputs : List Port)
  | addConstant (base : String) (value : Tensor α) (type : ElementType)
  | setInput (id : NodeId) (index : Nat) (source : Slot)
  | rewire (slots : List Slot) (source : Slot)
  | replaceOutput (old new : Slot)
  | replaceNode (old new : NodeId)
  | rename (id : NodeId) (name : String)
  | removeNode (id : NodeId)
  | removeDead (id : NodeId)
  | setOutputType (slot : Slot) (type : ElementType)
  | setRelaxed (id : NodeId) (types : RelaxedTypes)

namespace Operation

def edit : Operation α → Edit α GraphError Unit
  | addNode name op inputs outputs => discard (Edit.answer (·.addNode name op inputs outputs))
  | addUniqueNode base op inputs outputs =>
    discard (Edit.answer (·.addUniqueNode base op inputs outputs))
  | addConstant base value type => discard (Edit.answer (·.addConstant base value type))
  | setInput id index source => Edit.step (·.setInput id index source)
  | rewire slots source => Graph.rewire slots source
  | replaceOutput old new => Graph.replaceOutput old new
  | replaceNode old new => Graph.replaceNode old new
  | rename id name => Edit.step (·.rename id name)
  | removeNode id => Edit.step (·.removeNode id)
  | removeDead id => Edit.change (·.removeDead [id])
  | setOutputType slot type => Edit.step (·.setOutputType slot type)
  | setRelaxed id types => Edit.step (·.setRelaxed id types)

def isSingle : Operation α → Bool
  | addNode .. | setInput .. | rename .. | removeNode .. | setOutputType .. | setRelaxed .. => true
  | _ => false

def runAll : List (Operation α) → Graph α → Checked (Graph α)
  | [], g => return g
  | o :: rest, g => do
    let (_, g) ← exec o.edit g
    runAll rest g

theorem keeps_edit (g₀ : Graph α) (o : Operation α) : Keeps (Follows g₀) o.edit := by
  cases o with
  | addNode name op inputs outputs =>
    refine (Edit.keeps_answer fun g h => ?_).bind fun _ => Keeps.pure ()
    exact (sound_addNode h.1 name op inputs outputs).follows h
  | addUniqueNode base op inputs outputs =>
    refine (Edit.keeps_answer fun g h => ?_).bind fun _ => Keeps.pure ()
    exact (sound_addNode h.1 (g.uniqueName base) op inputs outputs).follows h
  | addConstant base value type =>
    refine (Edit.keeps_answer fun g h => ?_).bind fun _ => Keeps.pure ()
    exact (sound_addNode h.1 (g.uniqueName base) (.constant value) [] _).follows h
  | setInput id index source =>
    exact Edit.keeps_answer fun g h => (sound_setInput h.1 id index source).follows h
  | rewire slots source => exact keeps_rewire g₀ slots source
  | replaceOutput old new => exact keeps_replaceOutput g₀ old new
  | replaceNode old new => exact keeps_replaceNode g₀ old new
  | rename id name => exact Edit.keeps_answer fun g h => (sound_rename h.1 id name).follows h
  | removeNode id => exact Edit.keeps_answer fun g h => (sound_removeNode h.1 id).follows h
  | removeDead id => exact Edit.keeps_change fun g h => follows_removeDead g [id] h
  | setOutputType slot type =>
    exact Edit.keeps_answer fun g h => (sound_setOutputType h.1 slot type).follows h
  | setRelaxed id types =>
    exact Edit.keeps_answer fun g h => (sound_setRelaxed h.1 id types).follows h

theorem runAll_append (before after : List (Operation α)) (g : Graph α) :
    runAll (before ++ after) g = runAll before g >>= runAll after := by
  induction before generalizing g with
  | nil => rfl
  | cons o before ih =>
    rw [List.cons_append, runAll, runAll]
    cases exec o.edit g with
    | error fault => rfl
    | ok out => exact ih out.2

theorem runAll_follows (ops : List (Operation α)) (h : g.WellFormed) :
    ∃ g', runAll ops g = .ok g' ∧ Follows g g' := by
  induction ops generalizing g with
  | nil => exact ⟨g, rfl, h, .refl g⟩
  | cons o ops ih =>
    obtain ⟨r, g₁, hexec, h₁⟩ := keeps_edit g o g ⟨h, .refl g⟩
    obtain ⟨g', hrun, h'⟩ := ih h₁.1
    refine ⟨g', ?_, h'.1, h₁.2.trans h'.2⟩
    rw [runAll, hexec]
    exact hrun

theorem discard_answer_error {β : Type} {f : Graph α → Outcome α β} {e : GraphError}
    {g' : Graph α} (h : exec (discard (Edit.answer f) : Edit α GraphError Unit) g =
      .ok (.error e, g')) : f g = (.error e, g') := by
  change exec (Edit.answer f >>= fun _ => pure ()) g = _ at h
  rw [exec_bind, Edit.exec_answer] at h
  rcases hf : f g with ⟨_ | x, g''⟩
  · rw [hf] at h
    cases h
    rfl
  · rw [hf] at h
    cases h

theorem unchanged_of_error (h : g.WellFormed) {o : Operation α} (ho : o.isSingle = true)
    {e : GraphError} {g' : Graph α} (hexec : exec o.edit g = .ok (.error e, g')) : g' = g := by
  have unchanged {β : Type} {outcome : Outcome α β} (hs : Sound g outcome)
      (he : outcome = (.error e, g')) : g' = g := by
    rw [he] at hs
    exact hs.unchanged e rfl
  cases o with
  | addNode name op inputs outputs =>
    exact unchanged (sound_addNode h name op inputs outputs) (discard_answer_error hexec)
  | setInput id index source => exact unchanged (sound_setInput h ..) (Except.ok.inj hexec)
  | rename id name => exact unchanged (sound_rename h ..) (Except.ok.inj hexec)
  | removeNode id => exact unchanged (sound_removeNode h id) (Except.ok.inj hexec)
  | setOutputType slot type =>
    exact unchanged (sound_setOutputType h ..) (Except.ok.inj hexec)
  | setRelaxed id types => exact unchanged (sound_setRelaxed h ..) (Except.ok.inj hexec)
  | _ => simp [isSingle] at ho

end Operation

namespace WellFormed

theorem mem_names (h : g.WellFormed) {name : String} {id : NodeId} :
    (name, id) ∈ g.names ↔ g.name? id = some name := by
  rw [← h.index]
  constructor
  · intro hmem
    obtain ⟨entry, hentry⟩ : ∃ entry, g.names.find? (·.1 = name) = some entry := by
      rw [← Option.isSome_iff_exists, List.find?_isSome]
      exact ⟨(name, id), hmem, by simp⟩
    have hkey : entry.1 = name := by simpa using List.find?_some hentry
    have heq : entry = (name, id) :=
      List.inj_on_of_nodup_map h.keys (List.mem_of_find?_eq_some hentry) hmem hkey
    simp [nodeByName?, hentry, heq]
  · intro hfind
    obtain ⟨entry, hentry, rfl⟩ := Option.map_eq_some_iff.mp hfind
    have hkey : entry.1 = name := by simpa using List.find?_some hentry
    exact hkey ▸ List.mem_of_find?_eq_some hentry

theorem mem_liveNodes {id : NodeId} {n : Node α} :
    (id, n) ∈ g.liveNodes ↔ g.node? id = some n := by
  simp only [liveNodes, List.mem_filterMap, List.mem_range, Option.map_eq_some_iff,
    Prod.mk.injEq]
  constructor
  · rintro ⟨_, _, _, hn, rfl, rfl⟩
    exact hn
  · intro hn
    exact ⟨id, lt_size_of_node? hn, n, hn, rfl, rfl⟩

theorem nodup_liveIds : (g.liveNodes.map Prod.fst).Nodup := by
  rw [liveNodes, List.map_filterMap]
  refine List.Nodup.filterMap ?_ List.nodup_range
  intro i j k hi hj
  simp only [Option.map_map, Option.mem_def, Option.map_eq_some_iff, Function.comp_apply] at hi hj
  obtain ⟨_, -, rfl⟩ := hi
  obtain ⟨_, -, rfl⟩ := hj
  rfl

theorem size_eq (h : g.WellFormed) : g.size = g.liveNodes.length := by
  have hnames : (g.names.map Prod.snd).Nodup := by
    refine List.Nodup.map_on ?_ (h.keys.of_map _)
    rintro ⟨a, i⟩ ha ⟨b, j⟩ hb (rfl : i = j)
    have hab : some a = some b := (h.mem_names.mp ha).symm.trans (h.mem_names.mp hb)
    rw [Option.some.inj hab]
  have hperm : (g.names.map Prod.snd).Perm (g.liveNodes.map Prod.fst) := by
    rw [List.perm_ext_iff_of_nodup hnames nodup_liveIds]
    intro id
    constructor
    · intro hid
      obtain ⟨⟨name, _⟩, hmem, rfl⟩ := List.mem_map.mp hid
      obtain ⟨n, hn, -⟩ := Option.map_eq_some_iff.mp (h.mem_names.mp hmem)
      exact List.mem_map.mpr ⟨_, mem_liveNodes.mpr hn, rfl⟩
    · intro hid
      obtain ⟨⟨_, n⟩, hmem, rfl⟩ := List.mem_map.mp hid
      have hname : g.name? _ = some n.name := congrArg (Option.map _) (mem_liveNodes.mp hmem)
      exact List.mem_map.mpr ⟨_, h.mem_names.mpr hname, rfl⟩
  simpa [size] using hperm.length_eq

end WellFormed

open Operation in
/-- Names, inputs and readers agree after every run of operations that starts with the empty graph,
and the ids of removed nodes stay unused. -/
theorem operations_keep_representation (ops : List (Operation α)) :
    ∃ g, runAll ops Graph.empty = .ok g ∧
      (∀ name id, g.nodeByName? name = some id ↔ ∃ n, g.node? id = some n ∧ n.name = name) ∧
      g.size = g.liveNodes.length ∧
      (∀ v n i s, g.node? v = some n → n.inputs[i]? = some s →
        (∃ p w, g.node? s.node = some p ∧ p.outputs[s.index]? = some w ∧
          w.readers.count ⟨v, i⟩ = 1) ∧
        ∀ (u : NodeId) (p : Node α) (k : Nat) (w : Wire), g.node? u = some p →
          p.outputs[k]? = some w → ⟨v, i⟩ ∈ w.readers → s = ⟨u, k⟩) ∧
      (∀ (u : NodeId) (p : Node α) (k : Nat) (w : Wire) (r : Slot), g.node? u = some p →
        p.outputs[k]? = some w → r ∈ w.readers →
        ∃ n, g.node? r.node = some n ∧ n.inputs[r.index]? = some ⟨u, k⟩) ∧
      (∀ first second third g₁ g₂ id, ops = first ++ second ++ third →
        runAll first Graph.empty = .ok g₁ → runAll second g₁ = .ok g₂ →
        g₁.isLive id = true → g₂.isLive id = false → g.isLive id = false) ∧
      ∀ o : Operation α, o.isSingle = true →
        ∀ e g', exec o.edit g = .ok (.error e, g') → g' = g := by
  obtain ⟨g, hrun, h, -⟩ := runAll_follows ops (WellFormed.empty (α := α))
  have hreaders : ∀ {u : NodeId} {p : Node α} {k : Nat} {w : Wire}, g.node? u = some p →
      p.outputs[k]? = some w → g.readers ⟨u, k⟩ = w.readers := by
    intro u p k w hp hw
    simp [readers, hp, Node.readers, hw]
  refine ⟨g, hrun, fun name id => ?_, h.size_eq, fun v n i s hn hi => ⟨?_, ?_⟩, ?_, ?_, ?_⟩
  · rw [h.index, name?, Option.map_eq_some_iff]
  · have hread : g.input? v i = some s := input?_eq_some.mpr ⟨n, hn, hi⟩
    obtain ⟨w, hw⟩ := Option.isSome_iff_exists.mp (h.wire_of_input hread)
    obtain ⟨p, hp, hpw⟩ := wire?_eq_some.mp hw
    exact ⟨p, w, hp, hpw, hreaders hp hpw ▸ h.count_readers hread⟩
  · intro u p k w hp hw hmem
    have hread : g.input? v i = some s := input?_eq_some.mpr ⟨n, hn, hi⟩
    have hother := h.mem_readers.mp (hreaders hp hw ▸ hmem)
    exact Option.some.inj (hread.symm.trans hother)
  · intro u p k w r hp hw hmem
    exact input?_eq_some.mp (h.mem_readers.mp (hreaders hp hw ▸ hmem))
  · intro first second third g₁ g₂ id hsplit hfirst hsecond hlive hdead
    obtain ⟨g₁', hrun₁, h₁, -⟩ := runAll_follows first (WellFormed.empty (α := α))
    obtain rfl : g₁' = g₁ := Except.ok.inj (hrun₁.symm.trans hfirst)
    obtain ⟨g₂', hrun₂, h₂, hlater₂⟩ := runAll_follows second h₁
    obtain rfl : g₂' = g₂ := Except.ok.inj (hrun₂.symm.trans hsecond)
    obtain ⟨g₃, hrun₃, -, hlater₃⟩ := runAll_follows third h₂
    have hall : runAll ops Graph.empty = .ok g₃ := by
      rw [hsplit, runAll_append, runAll_append, hfirst]
      change runAll second g₁' >>= runAll third = _
      rw [hsecond]
      exact hrun₃
    obtain rfl : g = g₃ := Except.ok.inj (hrun.symm.trans hall)
    have hlt : id < g₁'.nodes.size := by
      obtain ⟨n, hn⟩ := Option.isSome_iff_exists.mp hlive
      exact lt_size_of_node? hn
    exact hlater₃.dead id (Nat.lt_of_lt_of_le hlt hlater₂.size) hdead
  · intro o ho e g' hexec
    exact unchanged_of_error h ho hexec

end Graph

end LowPrecision
