import Mathlib.Data.List.Nodup
import LowPrecision.Proofs.Graph.Outcomes

/-!
Well-formed graphs: the index of names describes the live nodes, and the readers of the outputs
mirror the inputs. Every single change keeps a graph well-formed.
-/

namespace LowPrecision

theorem foldl_keeps {β γ δ : Type} {f : β → γ → β} (view : β → δ)
    (h : ∀ b c, view (f b c) = view b) (b : β) (cs : List γ) :
    view (cs.foldl f b) = view b := by
  induction cs generalizing b with
  | nil => rfl
  | cons c cs ih => rw [List.foldl_cons, ih, h]

namespace Graph

variable {α : Type} {g : Graph α}

structure WellFormed (g : Graph α) : Prop where
  index (name : String) (id : NodeId) : g.nodeByName? name = some id ↔ g.name? id = some name
  keys : (g.names.map Prod.fst).Nodup
  mirror (s r : Slot) :
    (g.readers s).count r = if g.input? r.node r.index = some s then 1 else 0

namespace WellFormed

theorem empty : WellFormed (Graph.empty : Graph α) where
  index name id := by simp [nodeByName?, name?, node?, Graph.empty]
  keys := by simp [Graph.empty]
  mirror s r := by simp [readers, input?, node?, Graph.empty]

theorem mem_readers (h : g.WellFormed) {s r : Slot} :
    r ∈ g.readers s ↔ g.input? r.node r.index = some s := by
  rw [← List.count_pos_iff, h.mirror]
  split <;> simp [*]

theorem count_readers (h : g.WellFormed) {v : NodeId} {i : Nat} {s : Slot}
    (hi : g.input? v i = some s) : (g.readers s).count ⟨v, i⟩ = 1 := by
  rw [h.mirror, if_pos hi]

theorem wire_of_input (h : g.WellFormed) {v : NodeId} {i : Nat} {s : Slot}
    (hi : g.input? v i = some s) : (g.wire? s).isSome :=
  wire?_isSome_of_mem_readers (h.mem_readers.mpr hi : (⟨v, i⟩ : Slot) ∈ g.readers s)

theorem eq_of_name (h : g.WellFormed) {u v : NodeId} {name : String} (hu : g.name? u = some name)
    (hv : g.name? v = some name) : u = v :=
  Option.some.inj (((h.index name u).mpr hu).symm.trans ((h.index name v).mpr hv))

theorem live_of_input (h : g.WellFormed) {v : NodeId} {i : Nat} {s : Slot}
    (hi : g.input? v i = some s) : ∃ n, g.node? s.node = some n := by
  obtain ⟨w, hw⟩ := Option.isSome_iff_exists.mp (h.wire_of_input hi)
  obtain ⟨n, hn, -⟩ := wire?_eq_some.mp hw
  exact ⟨n, hn⟩

end WellFormed

section Readers

theorem readers_foldl_addReader (g : Graph α) (links : List (Slot × Slot)) (t : Slot)
    (h : ∀ l ∈ links, (g.wire? l.1).isSome) :
    (links.foldl (fun g (s, r) => g.addReader s r) g).readers t =
      g.readers t ++ (links.filter (·.1 = t)).map Prod.snd := by
  induction links generalizing g with
  | nil => simp
  | cons l links ih =>
    have hl : (g.wire? l.1).isSome := h l (by simp)
    rw [List.foldl_cons, ih _ (fun m hm => by simpa using h m (by simp [hm])),
      readers_addReader hl, List.filter_cons]
    by_cases ht : l.1 = t
    · simp [ht]
    · simp [ht, Ne.symm ht]

theorem readers_foldl_removeReader (g : Graph α) (links : List (Slot × Slot)) (t : Slot) :
    (links.foldl (fun g (s, r) => g.removeReader s r) g).readers t =
      (g.readers t).filter fun r => (t, r) ∉ links := by
  induction links generalizing g with
  | nil => exact (List.filter_eq_self.mpr (by simp)).symm
  | cons l links ih =>
    obtain ⟨s, r⟩ := l
    rw [List.foldl_cons, ih, readers_removeReader]
    by_cases ht : t = s
    · subst ht
      simp only [↓reduceIte, List.filter_filter]
      apply List.filter_congr
      intro x _
      simp [Bool.and_comm]
    · simp only [ht, ↓reduceIte]
      apply List.filter_congr
      intro x _
      simp [ht]

theorem mem_slotsOf {id : NodeId} {inputs : List Slot} {s r : Slot} :
    (s, r) ∈ slotsOf id inputs ↔ r.node = id ∧ inputs[r.index]? = some s := by
  obtain ⟨v, i⟩ := r
  simp only [slotsOf, List.mem_map, Prod.exists, Prod.mk.injEq, Slot.mk.injEq,
    List.mem_zipIdx_iff_getElem?]
  constructor
  · rintro ⟨s', i', hs, rfl, rfl, rfl⟩
    exact ⟨rfl, hs⟩
  · rintro ⟨rfl, hs⟩
    exact ⟨s, i, hs, rfl, rfl, rfl⟩

theorem nodup_slotsOf (id : NodeId) (inputs : List Slot) :
    ((slotsOf id inputs).map Prod.snd).Nodup := by
  have hmap : (slotsOf id inputs).map Prod.snd =
      (inputs.zipIdx.map Prod.snd).map fun i => (⟨id, i⟩ : Slot) := by
    simp only [slotsOf, List.map_map, Function.comp_def]
  rw [hmap, List.zipIdx_map_snd]
  exact List.Nodup.map (fun i j h => congrArg Slot.index h) (List.nodup_range')

theorem count_slotsOf (id : NodeId) (inputs : List Slot) (s r : Slot) :
    (((slotsOf id inputs).filter (·.1 = s)).map Prod.snd).count r =
      if r.node = id ∧ inputs[r.index]? = some s then 1 else 0 := by
  have hnodup : (((slotsOf id inputs).filter (·.1 = s)).map Prod.snd).Nodup :=
    (nodup_slotsOf id inputs).sublist (List.filter_sublist.map Prod.snd)
  rw [hnodup.count]
  congr 1
  simp [mem_slotsOf]

end Readers

section Attach

@[simp] theorem input?_attach (g : Graph α) (id v : NodeId) (inputs : List Slot) (i : Nat) :
    (g.attach id inputs).input? v i = g.input? v i :=
  foldl_keeps (fun g => input? g v i) (fun _ _ => input?_addReader ..) g _

@[simp] theorem name?_attach (g : Graph α) (id v : NodeId) (inputs : List Slot) :
    (g.attach id inputs).name? v = g.name? v :=
  foldl_keeps (fun g => name? g v) (fun _ _ => name?_addReader ..) g _

@[simp] theorem names_attach (g : Graph α) (id : NodeId) (inputs : List Slot) :
    (g.attach id inputs).names = g.names :=
  foldl_keeps Graph.names (fun _ _ => names_addReader ..) g _

@[simp] theorem size_attach (g : Graph α) (id : NodeId) (inputs : List Slot) :
    (g.attach id inputs).nodes.size = g.nodes.size :=
  foldl_keeps (fun g => g.nodes.size) (fun _ _ => size_addReader ..) g _

@[simp] theorem isLive_attach (g : Graph α) (id v : NodeId) (inputs : List Slot) :
    (g.attach id inputs).isLive v = g.isLive v :=
  foldl_keeps (fun g => isLive g v) (fun _ _ => isLive_addReader ..) g _

theorem readers_attach {g : Graph α} {id : NodeId} {inputs : List Slot}
    (h : ∀ s ∈ inputs, (g.wire? s).isSome) (t : Slot) :
    (g.attach id inputs).readers t =
      g.readers t ++ ((slotsOf id inputs).filter (·.1 = t)).map Prod.snd :=
  readers_foldl_addReader g _ t fun l hl => h l.1 (fst_mem_of_mem_slotsOf hl)

end Attach

section Detach

@[simp] theorem input?_detach (g : Graph α) (id v : NodeId) (n : Node α) (i : Nat) :
    (g.detach id n).input? v i = if v = id then none else g.input? v i := by
  rw [detach, input?_drop]
  split
  · rfl
  · exact foldl_keeps (fun g => input? g v i) (fun _ _ => input?_removeReader ..) g _

@[simp] theorem name?_detach (g : Graph α) (id v : NodeId) (n : Node α) :
    (g.detach id n).name? v = if v = id then none else g.name? v := by
  rw [detach, name?, node?_drop]
  split
  · rfl
  · exact foldl_keeps (fun g => name? g v) (fun _ _ => name?_removeReader ..) g _

theorem names_detach (g : Graph α) (id : NodeId) (n : Node α) :
    (g.detach id n).names = g.names.filter (·.1 ≠ n.name) := by
  rw [detach, drop]
  exact congrArg (List.filter _)
    (foldl_keeps Graph.names (fun _ _ => names_removeReader ..) g _)

theorem readers_detach (g : Graph α) (id : NodeId) (n : Node α) (t : Slot) :
    (g.detach id n).readers t = if t.node = id then [] else
      (g.readers t).filter fun r => (t, r) ∉ slotsOf id n.inputs := by
  rw [detach, readers_eq, wire?_drop]
  split
  · rfl
  · rw [← readers_foldl_removeReader g _ t, readers_eq]

end Detach

namespace WellFormed

theorem name?_ne_of_free (h : g.WellFormed) {name : String} (hfree : g.nodeByName? name = none)
    (id : NodeId) : g.name? id ≠ some name := by
  intro hname
  rw [(h.index name id).mpr hname] at hfree
  simp at hfree

theorem not_mem_keys {names : List (String × NodeId)} {name : String}
    (h : idOf names name = none) : name ∉ names.map Prod.fst := by
  intro hm
  obtain ⟨entry, hentry, rfl⟩ := List.mem_map.mp hm
  simp only [idOf, Option.map_eq_none_iff, List.find?_eq_none, decide_eq_true_eq] at h
  exact h entry hentry rfl

theorem push (h : g.WellFormed) {n : Node α} (hfree : g.nodeByName? n.name = none)
    (hin : ∀ s ∈ n.inputs, (g.wire? s).isSome) (hout : ∀ w ∈ n.outputs, w.readers = []) :
    ((g.attach g.nodes.size n.inputs).push n).WellFormed where
  index name id := by
    change idOf ((n.name, _) :: (g.attach _ _).names) name = some id ↔ _
    rw [idOf_cons, names_attach, size_attach, name?, node?_push, size_attach]
    by_cases hid : id = g.nodes.size
    · subst hid
      by_cases hname : n.name = name
      · simp [hname]
      · have hnone : ¬ idOf g.names name = some g.nodes.size := by
          rw [show idOf g.names name = g.nodeByName? name from rfl, h.index, name?,
            node?_of_size_le (Nat.le_refl _)]
          simp
        simp [hname, hnone]
    · rw [if_neg hid, show ((g.attach _ n.inputs).node? id).map Node.name = g.name? id from
        name?_attach .., ← h.index]
      by_cases hname : n.name = name
      · subst hname
        simp [hfree, Ne.symm hid]
      · rw [if_neg hname]; rfl
  keys := by
    change (((n.name, _) :: (g.attach _ _).names).map Prod.fst).Nodup
    rw [names_attach, List.map_cons, List.nodup_cons]
    exact ⟨not_mem_keys hfree, h.keys⟩
  mirror s r := by
    have hfresh : ∀ t : Slot, t.node = g.nodes.size → g.wire? t = none := by
      intro t ht
      simp [wire?, ht, node?_of_size_le]
    rw [readers_eq, wire?_push, input?_push, size_attach, input?_attach]
    by_cases hs : s.node = g.nodes.size
    · rw [if_pos hs]
      have hcount : (((n.outputs[s.index]?).map Wire.readers).getD []).count r = 0 := by
        cases hw : n.outputs[s.index]? with
        | none => rfl
        | some w => simp [hout w (List.mem_of_getElem? hw)]
      rw [hcount, if_neg]
      intro hr
      split at hr
      · have hsome := hin s (List.mem_of_getElem? hr)
        simp [hfresh s hs] at hsome
      · have hsome := h.wire_of_input hr
        simp [hfresh s hs] at hsome
    · rw [if_neg hs, ← readers_eq, readers_attach hin, List.count_append, h.mirror,
        count_slotsOf]
      by_cases hr : r.node = g.nodes.size
      · have hnone : g.input? g.nodes.size r.index = none := by
          simp [input?, node?_of_size_le]
        simp [hr, hnone]
      · simp [hr]

theorem not_read_of_readerCount (h : g.WellFormed) {id : NodeId} {n : Node α}
    (hn : g.node? id = some n) (hc : n.readerCount = 0) {v : NodeId} {i : Nat} {s : Slot}
    (hi : g.input? v i = some s) : s.node ≠ id := by
  rintro rfl
  have hmem : (⟨v, i⟩ : Slot) ∈ g.readers s := h.mem_readers.mpr hi
  obtain ⟨w, hw⟩ := Option.isSome_iff_exists.mp (h.wire_of_input hi)
  obtain ⟨m, hm, hout⟩ := wire?_eq_some.mp hw
  rw [hn, Option.some.injEq] at hm
  subst hm
  have hall : n.allReaders = [] := List.length_eq_zero_iff.mp hc
  simp only [Node.allReaders, List.flatMap_eq_nil_iff] at hall
  have hempty : w.readers = [] := hall w (List.mem_of_getElem? hout)
  rw [readers_eq, hw] at hmem
  simp [hempty] at hmem

theorem detach (h : g.WellFormed) {id : NodeId} {n : Node α} (hn : g.node? id = some n)
    (hc : n.readerCount = 0) : (g.detach id n).WellFormed where
  index name v := by
    change idOf (g.detach id n).names name = some v ↔ _
    rw [names_detach, idOf_filter, name?_detach]
    have hid : g.name? id = some n.name := by simp [name?, hn]
    by_cases hv : v = id
    · subst hv
      by_cases hname : name = n.name
      · simp [hname]
      · rw [if_neg hname, if_pos rfl, show idOf g.names name = g.nodeByName? name from rfl,
          h.index, hid]
        simp [Ne.symm hname]
    · rw [if_neg hv, ← h.index]
      by_cases hname : name = n.name
      · subst hname
        rw [if_pos rfl, (h.index _ _).mpr hid]
        simp [Ne.symm hv]
      · rw [if_neg hname]; rfl
  keys := by
    rw [names_detach]
    exact h.keys.sublist (List.filter_sublist.map Prod.fst)
  mirror s r := by
    have hslots : (s, r) ∈ slotsOf id n.inputs ↔ r.node = id ∧ g.input? r.node r.index = some s := by
      rw [mem_slotsOf]
      apply and_congr_right
      rintro rfl
      simp [input?, hn, Node.input?]
    rw [readers_detach, input?_detach]
    by_cases hs : s.node = id
    · rw [if_pos hs, if_neg]
      · rfl
      · intro hr
        split at hr
        · simp at hr
        · exact h.not_read_of_readerCount hn hc hr hs
    · rw [if_neg hs]
      by_cases hr : r.node = id
      · rw [if_pos hr, List.count_eq_zero_of_not_mem]
        · simp
        · intro hmem
          obtain ⟨hread, hkept⟩ := List.mem_filter.mp hmem
          have hslot : (s, r) ∈ slotsOf id n.inputs := hslots.mpr ⟨hr, h.mem_readers.mp hread⟩
          simp [hslot] at hkept
      · rw [if_neg hr, List.count_filter (by simp [hslots, hr]), h.mirror]

end WellFormed

end Graph

end LowPrecision
