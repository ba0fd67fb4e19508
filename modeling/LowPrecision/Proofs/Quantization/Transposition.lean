import LowPrecision.Proofs.Quantization.Spreading

namespace LowPrecision

namespace Tensor

section Transposition

variable {α : Type} {t t' : Tensor α} {outer : List Nat} {rows cols : Nat}

theorem exists_plane {s : List Nat} (h : 2 ≤ s.length) : ∃ outer r c, s = outer ++ [r, c] := by
  match hs : s.reverse with
  | [] => simp_all
  | [_] =>
    have hlength := congrArg List.length hs
    rw [List.length_reverse] at hlength
    rw [hlength] at h
    simp at h
  | c :: r :: outer =>
    refine ⟨outer.reverse, r, c, ?_⟩
    rw [← List.reverse_reverse s, hs]
    simp

theorem transposeLastTwo_of_rank (h : t.rank < 2) : t.transposeLastTwo = .ok t := by
  rw [transposeLastTwo]
  split
  · next cols rows outer hs =>
    have hlength := congrArg List.length hs
    rw [List.length_reverse, List.length_cons, List.length_cons] at hlength
    rw [rank] at h
    omega
  · rfl

theorem length_flatten_of_length {k : Nat} {xss : List (List α)}
    (h : ∀ xs ∈ xss, xs.length = k) : xss.flatten.length = xss.length * k := by
  rw [List.length_flatten, List.map_congr_left h, List.map_const', List.sum_replicate, smul_eq_mul]

theorem mapM_range_eq_ok {f : Nat → Checked α} {n : Nat} {xs : List α}
    (h : (List.range n).mapM f = .ok xs) :
    xs.length = n ∧ (∀ i < n, ∃ x, xs[i]? = some x ∧ f i = .ok x) ∧ ∀ x ∈ xs, ∃ i, f i = .ok x := by
  have hread := except_mapM_eq_ok.mp h
  have hlength : xs.length = n := hread.length_eq.symm.trans List.length_range
  have hget : ∀ i < n, ∃ x, xs[i]? = some x ∧ f i = .ok x :=
    fun i hi => forall₂_getElem? hread (List.getElem?_range hi)
  refine ⟨hlength, hget, fun x hx => ?_⟩
  obtain ⟨i, hi⟩ := List.getElem?_of_mem hx
  obtain ⟨y, hy, hf⟩ := hget i (hlength ▸ (List.getElem?_eq_some_iff.mp hi).1)
  cases hi.symm.trans hy
  exact ⟨i, hf⟩

theorem Filled.size_planes (hfilled : t.Filled) (hshape : t.shape = outer ++ [rows, cols]) :
    t.size = outer.prod * (rows * cols) := by
  rw [hfilled, hshape, List.prod_append]
  simp

theorem planes_count {size count : Nat} (h : size = count * (rows * cols)) :
    size / max (rows * cols) 1 * cols * rows = count * (cols * rows) := by
  rw [Nat.mul_assoc, Nat.mul_comm cols rows, h]
  rcases Nat.eq_zero_or_pos (rows * cols) with hzero | hpos
  · rw [hzero, Nat.mul_zero, Nat.mul_zero]
  · rw [Nat.max_eq_left hpos, Nat.mul_div_cancel _ hpos]

theorem transposeLastTwo_eq_ok (hshape : t.shape = outer ++ [rows, cols]) (hfilled : t.Filled)
    (h : t.transposeLastTwo = .ok t') : t'.shape = outer ++ [cols, rows] ∧ t'.Filled ∧
      ∀ b x y, b < outer.prod → x < rows → y < cols →
        t'.data[(b * cols + y) * rows + x]? = t.data[b * (rows * cols) + (x * cols + y)]? := by
  have hreverse : t.shape.reverse = cols :: rows :: outer.reverse := by simp [hshape]
  rw [transposeLastTwo, hreverse] at h
  dsimp only at h
  obtain ⟨plane, hplane, h⟩ := except_bind_eq_ok.mp h
  obtain ⟨planes, hplanes, h⟩ := except_bind_eq_ok.mp h
  cases h
  obtain ⟨-, rfl⟩ := mul_eq_ok.mp hplane
  have hcount := planes_count (hfilled.size_planes hshape)
  obtain ⟨hlength, hget, hmem⟩ := mapM_range_eq_ok hplanes
  have hrows : ∀ p ∈ planes, p.length = cols := by
    intro p hp
    obtain ⟨b, hb⟩ := hmem p hp
    exact (mapM_range_eq_ok hb).1
  have hcells : ∀ row ∈ planes.flatten, row.length = rows := by
    intro row hrow
    obtain ⟨p, hp, hrow⟩ := List.mem_flatten.mp hrow
    obtain ⟨b, hb⟩ := hmem p hp
    obtain ⟨c, hc⟩ := (mapM_range_eq_ok hb).2.2 row hrow
    exact (mapM_range_eq_ok hc).1
  refine ⟨by simp, ?_, fun b x y hb hx hy => ?_⟩
  · rw [Filled, size, length_flatten_of_length hcells, length_flatten_of_length hrows, hlength, hcount]
    simp
  · have hcols : 0 < cols * rows := Nat.mul_pos (Nat.zero_lt_of_lt hy) (Nat.zero_lt_of_lt hx)
    have hb' : b < t.size / max (rows * cols) 1 := by
      rw [Nat.mul_assoc] at hcount
      rwa [Nat.eq_of_mul_eq_mul_right hcols hcount]
    obtain ⟨p, hp, hp'⟩ := hget b hb'
    obtain ⟨row, hrow, hrow'⟩ := (mapM_range_eq_ok hp').2.1 y hy
    obtain ⟨cell, hcell, hcell'⟩ := (mapM_range_eq_ok hrow').2.1 x hx
    rw [getElem?_flatten_of_length hcells hx, getElem?_flatten_of_length hrows hy, hp, Option.bind_some,
      hrow, Option.bind_some, hcell, ← Nat.add_assoc]
    exact (get_eq_ok.mp hcell').symm

theorem perm_swapped (outer : List Nat) (rows cols : Nat) :
    (outer ++ [rows, cols]).Perm (outer ++ [cols, rows]) := (List.Perm.refl outer).append (.swap _ _ _)

theorem transposed_lt {size rows cols batch r c : Nat} (hbatch : batch < size / max (rows * cols) 1)
    (hr : r < rows) (hc : c < cols) : batch * (rows * cols) + r * cols + c < size := by
  have hplane : 1 ≤ rows * cols := Nat.mul_pos (Nat.zero_lt_of_lt hr) (Nat.zero_lt_of_lt hc)
  rw [Nat.max_eq_left hplane] at hbatch
  have hrow : (r + 1) * cols ≤ rows * cols := Nat.mul_le_mul_right _ hr
  have hall : (batch + 1) * (rows * cols) ≤ size :=
    Nat.le_trans (Nat.mul_le_mul_right _ hbatch) (Nat.div_mul_le_self size _)
  rw [Nat.succ_mul] at hrow hall
  omega

theorem exists_transposeLastTwo (hshape : t.shape = outer ++ [rows, cols])
    (hplane : rows * cols < Checked.wordSize) : ∃ t', t.transposeLastTwo = .ok t' := by
  have hreverse : t.shape.reverse = cols :: rows :: outer.reverse := by simp [hshape]
  have hcells : ∀ b ∈ List.range (t.size / max (rows * cols) 1), ∃ plane,
      ((List.range cols).mapM fun c => (List.range rows).mapM fun r =>
        Checked.get t.data (b * (rows * cols) + r * cols + c)) = .ok plane := by
    refine fun b hb => exists_except_mapM fun c hc => exists_except_mapM fun r hr => ?_
    have hlt := transposed_lt (List.mem_range.mp hb) (List.mem_range.mp hr) (List.mem_range.mp hc)
    exact ⟨_, get_eq_ok.mpr (List.getElem?_eq_getElem hlt)⟩
  obtain ⟨planes, hplanes⟩ := exists_except_mapM hcells
  rw [transposeLastTwo, hreverse]
  exact ⟨_, except_bind_eq_ok.mpr ⟨_, word_ok hplane, except_bind_eq_ok.mpr ⟨planes, hplanes, rfl⟩⟩⟩

theorem spread?_plane (hshape : t.shape = outer ++ [rows, cols]) {o : Index}
    (hle : outer.length ≤ o.length) (x y : Nat) : t.spread? (o ++ [x, y]) =
      t.data[place outer (o.drop (o.length - outer.length)) * (rows * cols) +
        ((if rows = 1 then 0 else x) * cols + if cols = 1 then 0 else y)]? := by
  have hdrop : (o ++ [x, y]).drop ((o ++ [x, y]).length - t.rank) =
      o.drop (o.length - outer.length) ++ [x, y] := by
    rw [rank, hshape, List.length_append, List.length_append]
    change List.drop (o.length + 2 - (outer.length + 2)) _ = _
    rw [Nat.add_sub_add_right, List.drop_append_of_le_length (Nat.sub_le ..)]
  rw [spread?, hdrop, hshape, place_of_append (by rw [List.length_drop]; omega)]
  simp [place]

theorem spread?_transposed (hshape : t.shape = outer ++ [rows, cols]) (hfilled : t.Filled)
    (h : t.transposeLastTwo = .ok t') {target : List Nat} (hspread : t.SpreadsOver target) {o : Index}
    {x y : Nat} (hi : Index.Inside (o ++ [x, y]) target) :
    t'.spread? (o ++ [y, x]) = t.spread? (o ++ [x, y]) := by
  obtain ⟨hshape', -, hdata⟩ := transposeLastTwo_eq_ok hshape hfilled h
  have hle : outer.length ≤ o.length := by
    have hrank := (broadcastShape_eq_right.mp hspread).1
    rw [← hi.length_eq, hshape, List.length_append, List.length_append] at hrank
    simpa using hrank
  have hin := hi.fit_widens (broadcastShape_eq_right.mp hspread).2
  rw [hshape, Index.fit_append hle (show [x, y].length = [rows, cols].length from rfl)] at hin
  obtain ⟨houter, hlast⟩ := hin.split (Index.length_fit hle)
  obtain ⟨hx, hy⟩ : (if rows = 1 then 0 else x) < rows ∧ (if cols = 1 then 0 else y) < cols := by
    cases hlast with
    | cons hx hlast =>
      cases hlast with
      | cons hy _ => exact ⟨hx, hy⟩
  have hb := place_lt houter
  rw [place_fit] at hb
  have hcell := hdata _ _ _ hb hx hy
  rw [spread?_plane hshape' hle, spread?_plane hshape hle, ← hcell, Nat.add_mul,
    Nat.mul_assoc, Nat.add_assoc]

theorem eq_of_at? (ht : t.Filled) (ht' : t'.Filled) (hshape : t.shape = t'.shape)
    (h : ∀ i : Index, i.Inside t.shape → t.at? i = t'.at? i) : t = t' := by
  obtain ⟨s, data⟩ := t
  obtain ⟨s', data'⟩ := t'
  obtain rfl : s = s' := hshape
  have hlength : data.length = data'.length := ht.trans ht'.symm
  refine congrArg (Tensor.mk s) (List.ext_getElem? fun n => ?_)
  by_cases hn : n < s.prod
  · obtain ⟨i, hi, rfl⟩ := exists_index hn
    have hsame := h i hi
    rwa [at?, at?, ← place_eq_rowMajor hi] at hsame
  · have hout : data.length ≤ n := (Nat.not_lt.mp hn).trans' (le_of_eq ht)
    rw [List.getElem?_eq_none hout, List.getElem?_eq_none (hlength ▸ hout)]

theorem inside_swapped {o : Index} {r c : Nat} :
    Index.Inside (o ++ [r, c]) (outer ++ [rows, cols]) ↔ Index.Inside (o ++ [c, r]) (outer ++ [cols, rows]) := by
  have hswap : ∀ {r c rows cols : Nat}, Index.Inside (o ++ [r, c]) (outer ++ [rows, cols]) →
      Index.Inside (o ++ [c, r]) (outer ++ [cols, rows]) := fun h => by
    have hlength := h.length_eq
    obtain ⟨ho, hlast⟩ := h.split (by simpa using hlength)
    cases hlast with
    | cons hr hlast =>
      cases hlast with
      | cons hc _ => exact List.rel_append ho (.cons hc (.cons hr .nil))
  exact ⟨hswap, hswap⟩

theorem at?_transposed (hshape : t.shape = outer ++ [rows, cols]) (hfilled : t.Filled)
    (h : t.transposeLastTwo = .ok t') {o : Index} {r c : Nat} (hi : Index.Inside (o ++ [r, c]) t.shape) :
    t'.at? (o ++ [c, r]) = t.at? (o ++ [r, c]) := by
  have hshape' := (transposeLastTwo_eq_ok hshape hfilled h).1
  have hi' : Index.Inside (o ++ [c, r]) t'.shape := by
    rw [hshape] at hi
    rw [hshape']
    exact inside_swapped.mp hi
  rw [← spread?_of_inside hi, ← spread?_of_inside hi',
    spread?_transposed hshape hfilled h (broadcastShape_self _) hi]

theorem transposeLastTwo_twice (hshape : t.shape = outer ++ [rows, cols]) (hfilled : t.Filled)
    (hplane : rows * cols < Checked.wordSize) :
    (t.transposeLastTwo >>= transposeLastTwo) = .ok t := by
  obtain ⟨t', ht'⟩ := exists_transposeLastTwo hshape hplane
  obtain ⟨hshape', hfilled', -⟩ := transposeLastTwo_eq_ok hshape hfilled ht'
  obtain ⟨t'', ht''⟩ := exists_transposeLastTwo hshape' (Nat.mul_comm rows cols ▸ hplane)
  obtain ⟨hshape'', hfilled'', -⟩ := transposeLastTwo_eq_ok hshape' hfilled' ht''
  refine except_bind_eq_ok.mpr ⟨t', ht', ht''.trans (congrArg Except.ok ?_)⟩
  refine eq_of_at? hfilled'' hfilled (hshape''.trans hshape.symm) fun i hi => ?_
  obtain ⟨o, r, c, rfl⟩ := exists_plane (s := i) (by rw [hi.length_eq, hshape'']; simp)
  rw [hshape''] at hi
  rw [at?_transposed hshape' hfilled' ht'' (hshape' ▸ inside_swapped.mp hi),
    at?_transposed hshape hfilled ht' (hshape ▸ hi)]

/-- Swapping the two innermost dimensions transposes every plane, whatever lies outside of it, and a second
swap gives the tensor back. -/
theorem transposeLastTwo_involutive (hvalid : t.Valid) (hfits : FitsWord t.shape) :
    (2 ≤ t.rank → ∃ outer rows cols t', t.shape = outer ++ [rows, cols] ∧ t.transposeLastTwo = .ok t' ∧
      t'.Valid ∧ t'.shape = outer ++ [cols, rows] ∧
      ∀ (batch : Index) r c, Index.Inside (batch ++ [r, c]) t.shape →
        ∃ x, t'.at? (batch ++ [c, r]) = some x ∧ t.at? (batch ++ [r, c]) = some x) ∧
    (t.transposeLastTwo >>= transposeLastTwo) = .ok t := by
  have hplane : ∀ {outer : List Nat} {rows cols : Nat}, t.shape = outer ++ [rows, cols] →
      rows * cols < Checked.wordSize := fun {outer rows cols} hshape => by
    simpa using hfits [rows, cols] (hshape ▸ List.sublist_append_right _ _)
  refine ⟨fun hrank => ?_, ?_⟩
  · obtain ⟨outer, rows, cols, hshape⟩ := exists_plane hrank
    obtain ⟨t', ht'⟩ := exists_transposeLastTwo hshape (hplane hshape)
    obtain ⟨hshape', hfilled', -⟩ := transposeLastTwo_eq_ok hshape hvalid.filled ht'
    have hfits' : FitsWord t'.shape := hshape' ▸ (hshape ▸ hfits).perm (perm_swapped outer rows cols)
    refine ⟨outer, rows, cols, t', hshape, ht', hfilled'.valid hfits', hshape', fun batch r c hi => ?_⟩
    obtain ⟨x, hx⟩ := exists_at? hvalid.filled hi
    exact ⟨x, (at?_transposed hshape hvalid.filled ht' hi).trans hx, hx⟩
  · by_cases hrank : t.rank < 2
    · exact except_bind_eq_ok.mpr ⟨t, transposeLastTwo_of_rank hrank, transposeLastTwo_of_rank hrank⟩
    · obtain ⟨outer, rows, cols, hshape⟩ := exists_plane (Nat.le_of_not_lt hrank)
      exact transposeLastTwo_twice hshape hvalid.filled (hplane hshape)

def sampleStack : Tensor Rat := ⟨[2, 2, 3], [1, 2, 3, 4, 5, 6, 7, 8, 9, 10, 11, 12]⟩

theorem transposeLastTwo_involutive_of_sampleStack :
    (sampleStack.Valid ∧ FitsWord sampleStack.shape) ∧ (∃ t', sampleStack.transposeLastTwo = .ok t' ∧
      t'.shape = [2, 3, 2] ∧ t'.at? [1, 2, 0] = some 9) ∧
    (sampleStack.transposeLastTwo >>= transposeLastTwo) = .ok sampleStack := by
  have hvalid : sampleStack.Valid := by decide +kernel
  have hfits : FitsWord sampleStack.shape := by decide +kernel
  obtain ⟨hplanes, htwice⟩ := transposeLastTwo_involutive hvalid hfits
  obtain ⟨outer, rows, cols, t', hshape, ht', -, hshape', helements⟩ := hplanes (by decide)
  obtain ⟨rfl, hlast⟩ : [2] = outer ∧ [2, 3] = [rows, cols] :=
    List.append_inj' (show [2] ++ [2, 3] = outer ++ [rows, cols] from hshape) rfl
  obtain ⟨rfl, rfl⟩ : 2 = rows ∧ 3 = cols := by simpa using hlast
  refine ⟨⟨hvalid, hfits⟩, ⟨t', ht', hshape', ?_⟩, htwice⟩
  obtain ⟨x, hx, hx'⟩ := helements [1] 0 2 (by decide)
  rw [show [1, 2, 0] = [1] ++ [2, 0] from rfl, hx, ← hx']
  decide +kernel

end Transposition

section Numbers

variable {t t' : Tensor Rat} {outer : List Nat} {rows cols : Nat}

theorem valueAt_transposed (hshape : t.shape = outer ++ [rows, cols]) (hfilled : t.Filled)
    (h : t.transposeLastTwo = .ok t') {target : List Nat} (hspread : t.SpreadsOver target) {o : Index}
    {x y : Nat} (hi : Index.Inside (o ++ [x, y]) target) :
    t'.valueAt (o ++ [y, x]) = t.valueAt (o ++ [x, y]) := by
  rw [valueAt, valueAt, spread?_transposed hshape hfilled h hspread hi]

theorem valueAt_last {init : List Nat} (hshape : t.shape = init ++ [1]) {o : Index}
    (hle : init.length ≤ o.length) (x y : Nat) : t.valueAt (o ++ [x]) = t.valueAt (o ++ [y]) := by
  have hspread : ∀ a : Nat, t.spread? (o ++ [a]) =
      t.data[place init (o.drop (o.length - init.length))]? := by
    intro a
    have hdrop : (o ++ [a]).drop ((o ++ [a]).length - t.rank) =
        o.drop (o.length - init.length) ++ [a] := by
      rw [rank, hshape, List.length_append, List.length_append]
      change List.drop (o.length + 1 - (init.length + 1)) _ = _
      rw [Nat.add_sub_add_right, List.drop_append_of_le_length (Nat.sub_le ..)]
    rw [spread?, hdrop, hshape, place_of_append (by rw [List.length_drop]; omega)]
    simp [place]
  rw [valueAt, valueAt, hspread, hspread]

end Numbers

end Tensor

end LowPrecision
