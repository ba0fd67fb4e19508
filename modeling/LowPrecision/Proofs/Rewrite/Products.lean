import LowPrecision.Proofs.Quantization.Transposition
import LowPrecision.Proofs.Rewrite.Lowering

/-!
Matrix products of quantized operands. The product of the scales stands in the place of both when
each operand has one scale along the axis that is summed over.
-/

namespace LowPrecision

open LowPrecision.Graph

namespace MatMul

inductive Operand where
  | vector (inner : Nat)
  | matrices (outer : List Nat) (free inner : Nat)
  deriving DecidableEq

namespace Operand

def inner : Operand → Nat
  | vector inner => inner
  | matrices _ _ inner => inner

def outer : Operand → List Nat
  | vector _ => []
  | matrices outer _ _ => outer

def free : Operand → Nat
  | vector _ => 1
  | matrices _ free _ => free

def order (innerLast : Bool) (free inner : Nat) : List Nat :=
  if innerLast then [free, inner] else [inner, free]

def axes (o : Operand) (innerLast : Bool) (free inner : Nat) : List Nat :=
  match o with
  | vector _ => [inner]
  | matrices .. => order innerLast free inner

def kept (o : Operand) (free : Nat) : List Nat :=
  match o with
  | vector _ => []
  | matrices .. => [free]

def shape (o : Operand) (innerLast : Bool) : List Nat := o.outer ++ o.axes innerLast o.free o.inner

def index (o : Operand) (innerLast : Bool) (batch : Index) (free inner : Nat) : Index :=
  Index.fit (batch ++ o.axes innerLast free inner) (o.shape innerLast)

def ofShape? (innerLast : Bool) (shape : List Nat) : Option Operand :=
  match shape.reverse with
  | [] => none
  | [inner] => some (vector inner)
  | last :: prev :: outer =>
    some (if innerLast then matrices outer.reverse prev last else matrices outer.reverse last prev)

theorem ofShape?_shape (o : Operand) (innerLast : Bool) : ofShape? innerLast (o.shape innerLast) = some o := by
  cases o with
  | vector inner => rfl
  | matrices outer free inner => cases innerLast <;> simp [ofShape?, shape, axes, order, Operand.outer,
      Operand.free, Operand.inner]

end Operand

/-- The sums of a product: over rows of the left operand and columns of the right one, which are
transposed on request, for each batch of the joint batch axes. -/
def contraction (left right : Operand) (transposeA transposeB : Bool) (batch : List Nat) :
    Contraction where
  shape := batch ++ (left.kept left.free ++ right.kept right.free)
  terms i :=
    let kept := i.drop batch.length
    (List.range left.inner).map fun j =>
      (left.index (!transposeA) (i.take batch.length) (kept.headD 0) j,
        right.index transposeB (i.take batch.length) (kept.getLastD 0) j)

def product? (transposeA transposeB : Bool) (x y : Values) : Option Values := do
  let left ← Operand.ofShape? (!transposeA) x.shape
  let right ← Operand.ofShape? transposeB y.shape
  if left.inner = right.inner then
    match broadcastShape left.outer right.outer with
    | .ok batch => some ((contraction left right transposeA transposeB batch).apply x y)
    | .error _ => none
  else none

section Terms

variable {left right : Operand} {transposeA transposeB : Bool} {batch : List Nat}

theorem product?_eq (hinner : left.inner = right.inner)
    (hbatch : broadcastShape left.outer right.outer = .ok batch) {x y : Values}
    (hx : x.shape = left.shape (!transposeA)) (hy : y.shape = right.shape transposeB) :
    product? transposeA transposeB x y =
      some ((contraction left right transposeA transposeB batch).apply x y) := by
  rw [product?, hx, hy, Operand.ofShape?_shape, Operand.ofShape?_shape]
  change (if left.inner = right.inner then _ else none) = _
  rw [if_pos hinner, hbatch]

theorem exists_parts {i : Index} (hi : i.Inside (contraction left right transposeA transposeB batch).shape) :
    ∃ b row col, Index.Inside b batch ∧ row < left.free ∧ col < right.free ∧
      i = b ++ (left.kept row ++ right.kept col) := by
  have hsplit := List.take_append_drop batch.length i
  have hlength : (i.take batch.length).length = batch.length := by
    have hrank : i.length = _ := hi.length_eq
    rw [contraction, List.length_append] at hrank
    rw [List.length_take]
    omega
  rw [← hsplit] at hi
  obtain ⟨hb, hkept⟩ := Index.Inside.split hi hlength
  generalize i.drop batch.length = r at hsplit hkept
  refine ⟨i.take batch.length, ?_⟩
  cases left with
  | vector =>
    cases right with
    | vector =>
      cases hkept
      exact ⟨0, 0, hb, Nat.one_pos, Nat.one_pos, hsplit.symm⟩
    | matrices outer n inner =>
      cases hkept with
      | @cons col _ _ _ hcol hnil =>
        cases hnil
        exact ⟨0, col, hb, Nat.one_pos, hcol, hsplit.symm⟩
  | matrices outer m inner =>
    cases right with
    | vector =>
      cases hkept with
      | @cons row _ _ _ hrow hnil =>
        cases hnil
        exact ⟨row, 0, hb, hrow, Nat.one_pos, hsplit.symm⟩
    | matrices outer' n inner' =>
      cases hkept with
      | @cons row _ _ _ hrow hrest =>
        cases hrest with
        | @cons col _ _ _ hcol hnil =>
          cases hnil
          exact ⟨row, col, hb, hrow, hcol, hsplit.symm⟩

theorem terms_eq {b : Index} (hb : b.length = batch.length) (row col : Nat) :
    (contraction left right transposeA transposeB batch).terms (b ++ (left.kept row ++ right.kept col)) =
      (List.range left.inner).map fun j =>
        (left.index (!transposeA) b row j, right.index transposeB b col j) := by
  rw [contraction]
  dsimp only
  rw [← hb, List.take_left, List.drop_left]
  cases left <;> cases right <;> rfl

theorem Operand.spreads {o : Operand} (innerLast : Bool) (h : broadcastShape o.outer batch = .ok batch) :
    broadcastShape (o.shape innerLast) (batch ++ o.axes innerLast o.free o.inner) =
      .ok (batch ++ o.axes innerLast o.free o.inner) :=
  broadcastShape_append h (.refl _)

theorem Operand.inside {o : Operand} {innerLast : Bool} {b : Index} {row j : Nat} (hb : b.Inside batch)
    (hrow : row < o.free) (hj : j < o.inner) :
    Index.Inside (b ++ o.axes innerLast row j) (batch ++ o.axes innerLast o.free o.inner) := by
  refine List.rel_append hb ?_
  cases o with
  | vector => exact .cons hj .nil
  | matrices =>
    cases innerLast
    · exact .cons hj (.cons hrow .nil)
    · exact .cons hrow (.cons hj .nil)

theorem reads_contraction (hinner : left.inner = right.inner)
    (hbatch : broadcastShape left.outer right.outer = .ok batch) :
    (contraction left right transposeA transposeB batch).Reads (left.shape (!transposeA))
      (right.shape transposeB) := by
  obtain ⟨hleft, hright⟩ := broadcastShape_of_ok hbatch
  intro i hi p hp
  obtain ⟨b, row, col, hb, hrow, hcol, rfl⟩ := exists_parts hi
  rw [terms_eq hb.length_eq] at hp
  obtain ⟨j, hj, rfl⟩ := List.mem_map.mp hp
  have hj := List.mem_range.mp hj
  exact ⟨(Operand.inside hb hrow hj).fit_widens
      (broadcastShape_eq_right.mp (Operand.spreads _ hleft)).2,
    (Operand.inside hb hcol (hinner ▸ hj)).fit_widens
      (broadcastShape_eq_right.mp (Operand.spreads _ hright)).2⟩

theorem Operand.valueAt_index {o : Operand} {innerLast : Bool} {t : Tensor Rat} {b : Index}
    (ht : t.SpreadsOver (o.shape innerLast)) (hle : o.outer.length ≤ b.length) (row j : Nat) :
    t.valueAt (o.index innerLast b row j) = t.valueAt (b ++ o.axes innerLast row j) := by
  refine Tensor.valueAt_fit ht ?_
  rw [Operand.shape, List.length_append, List.length_append]
  refine Nat.add_le_add hle (le_of_eq ?_)
  cases o <;> cases innerLast <;> rfl

theorem factors_iff {a b : Tensor Rat} (hbatch : broadcastShape left.outer right.outer = .ok batch)
    (ha : a.SpreadsOver (left.shape (!transposeA))) (hb : b.SpreadsOver (right.shape transposeB))
    (e : Index → Rat) :
    (contraction left right transposeA transposeB batch).Factors a.valueAt b.valueAt e ↔
      ∀ (k : Index) (row col j : Nat), k.Inside batch → row < left.free → col < right.free → j < left.inner →
        a.valueAt (k ++ left.axes (!transposeA) row j) * b.valueAt (k ++ right.axes transposeB col j) =
          e (k ++ (left.kept row ++ right.kept col)) := by
  obtain ⟨hleft, hright⟩ := broadcastShape_of_ok hbatch
  have hvalues : ∀ (k : Index) (row col j : Nat), k.Inside batch →
      a.valueAt (left.index (!transposeA) k row j) * b.valueAt (right.index transposeB k col j) =
        a.valueAt (k ++ left.axes (!transposeA) row j) *
          b.valueAt (k ++ right.axes transposeB col j) := by
    intro k row col j hk
    have hlength : k.length = batch.length := hk.length_eq
    rw [Operand.valueAt_index ha (hlength ▸ (broadcastShape_eq_right.mp hleft).1),
      Operand.valueAt_index hb (hlength ▸ (broadcastShape_eq_right.mp hright).1)]
  constructor
  · intro h k row col j hk hrow hcol hj
    have hin : Index.Inside (k ++ (left.kept row ++ right.kept col))
        (contraction left right transposeA transposeB batch).shape := by
      refine List.rel_append hk (List.rel_append ?_ ?_)
      · cases left
        · exact .nil
        · exact .cons hrow .nil
      · cases right
        · exact .nil
        · exact .cons hcol .nil
    rw [← hvalues k row col j hk]
    refine h _ hin (_, _) ?_
    rw [terms_eq hk.length_eq]
    exact List.mem_map.mpr ⟨j, List.mem_range.mpr hj, rfl⟩
  · intro h i hi p hp
    obtain ⟨k, row, col, hk, hrow, hcol, rfl⟩ := exists_parts hi
    rw [terms_eq hk.length_eq] at hp
    obtain ⟨j, hj, rfl⟩ := List.mem_map.mp hp
    rw [hvalues k row col j hk]
    exact h k row col j hk hrow hcol (List.mem_range.mp hj)

end Terms

section Scales

open Tensor Operand

variable {flag : Bool} {t t' : Tensor Rat} {batch : List Nat} {p q : Nat}

theorem size_of_transposeIf (hfilled : t.Filled) (h : transposeIf flag t = .ok t') :
    t'.Filled ∧ t'.size = t.size ∧ t'.rank = t.rank := by
  cases flag with
  | false =>
    cases h
    exact ⟨hfilled, rfl, rfl⟩
  | true =>
    change t.transposeLastTwo = .ok t' at h
    by_cases hrank : t.rank < 2
    · rw [transposeLastTwo_of_rank hrank] at h
      cases h
      exact ⟨hfilled, rfl, rfl⟩
    · obtain ⟨outer, r, c, hs⟩ := exists_plane (Nat.le_of_not_lt hrank)
      obtain ⟨hs', hfilled', -⟩ := transposeLastTwo_eq_ok hs hfilled h
      refine ⟨hfilled', ?_, by rw [rank, rank, hs, hs', List.length_append, List.length_append]; rfl⟩
      rw [hfilled, hfilled', hs, hs', List.prod_append, List.prod_append]
      simp [Nat.mul_comm]

theorem valueAt_transposeIf (hfilled : t.Filled) (h : transposeIf flag t = .ok t')
    (hrank : flag = true → 2 ≤ t.rank) (hspread : t.SpreadsOver (batch ++ order (!flag) p q)) :
    t'.SpreadsOver (batch ++ [p, q]) ∧ ∀ (b : Index) (x y : Nat), b.Inside batch → x < p → y < q →
      t'.valueAt (b ++ [x, y]) = t.valueAt (b ++ order (!flag) x y) := by
  cases flag with
  | false =>
    cases h
    exact ⟨hspread, fun _ _ _ _ _ _ => rfl⟩
  | true =>
    change t.transposeLastTwo = .ok t' at h
    change t.SpreadsOver (batch ++ [q, p]) at hspread
    obtain ⟨outer, r, c, hs⟩ := exists_plane (hrank rfl)
    obtain ⟨hs', -, -⟩ := transposeLastTwo_eq_ok hs hfilled h
    refine ⟨?_, fun b x y hb hx hy => ?_⟩
    · rw [SpreadsOver, hs] at hspread
      obtain ⟨houter, hlast⟩ := broadcastShape_split hspread rfl
      rw [SpreadsOver, hs']
      refine broadcastShape_append houter ?_
      cases hlast with
      | cons hr hlast =>
        cases hlast with
        | cons hc _ => exact .cons hc (.cons hr .nil)
    · exact valueAt_transposed hs hfilled h hspread (List.rel_append hb (.cons hy (.cons hx .nil)))

theorem single_transposeIf (hfilled : t.Filled) (h : transposeIf flag t = .ok t') (hone : t.size = 1)
    {target : List Nat} (hle : t.rank ≤ target.length) :
    t'.SpreadsOver target ∧ ∀ i j, t'.valueAt i = t.valueAt j := by
  obtain ⟨hfilled', hsize, hrank⟩ := size_of_transposeIf hfilled h
  obtain ⟨a, ha, hones, -, hvalue⟩ := exists_single hfilled hone
  obtain ⟨a', ha', hones', -, hvalue'⟩ := exists_single hfilled' (hsize.trans hone)
  refine ⟨broadcastShape_ones hones' (hrank ▸ hle : t'.rank ≤ _), fun i j => ?_⟩
  rw [hvalue, hvalue']
  cases flag with
  | false =>
    cases h
    exact List.singleton_inj.mp (ha'.symm.trans ha)
  | true =>
    change t.transposeLastTwo = .ok t' at h
    by_cases hlt : t.rank < 2
    · rw [transposeLastTwo_of_rank hlt] at h
      cases h
      exact List.singleton_inj.mp (ha'.symm.trans ha)
    · obtain ⟨outer, r, c, hs⟩ := exists_plane (Nat.le_of_not_lt hlt)
      obtain ⟨-, -, hdata⟩ := transposeLastTwo_eq_ok hs hfilled h
      obtain rfl : r = 1 := hones r (by simp [hs])
      obtain rfl : c = 1 := hones c (by simp [hs])
      have hprod : outer.prod = 1 := List.prod_eq_one fun d hd => hones d (by simp [hs, hd])
      have hcell := hdata 0 0 0 (hprod ▸ Nat.one_pos) Nat.one_pos Nat.one_pos
      rw [ha, ha'] at hcell
      exact Option.some.inj hcell

theorem single_factor {m n : Nat} {innerLast : Bool} (hfilled : t.Filled) (h : transposeIf flag t = .ok t')
    (hone : t.size = 1) (hspread : t.SpreadsOver (batch ++ order innerLast p q)) :
    t'.SpreadsOver (batch ++ [m, n]) ∧ ∀ i j, t'.valueAt i = t.valueAt j := by
  refine single_transposeIf hfilled h hone ?_
  have hle := (broadcastShape_eq_right.mp hspread).1
  rw [List.length_append] at hle ⊢
  cases innerLast <;> exact hle

theorem spreads_rows {init : List Nat} {m k n : Nat} (hs : t.shape = init ++ [1])
    (hspread : t.SpreadsOver (batch ++ [m, k])) :
    t.SpreadsOver (batch ++ [m, n]) ∧ ∀ (b : Index) (row col j : Nat), b.Inside batch →
      t.valueAt (b ++ [row, col]) = t.valueAt (b ++ [row, j]) := by
  rw [SpreadsOver, hs, List.append_cons batch m [k]] at hspread
  obtain ⟨hfirst, -⟩ := broadcastShape_split hspread rfl
  refine ⟨?_, fun b row col j hb => ?_⟩
  · rw [SpreadsOver, hs, List.append_cons batch m [n]]
    exact broadcastShape_append hfirst (.cons (.inr rfl) .nil)
  · have hle := (broadcastShape_eq_right.mp hfirst).1
    rw [List.append_cons b row [col], List.append_cons b row [j]]
    refine valueAt_last hs (hle.trans_eq ?_) col j
    rw [List.length_append, List.length_append, hb.length_eq]
    rfl

theorem spreads_columns_of_vector {z m k n : Nat} (hs : t.shape = [z])
    (hspread : t.SpreadsOver (batch ++ [k, n])) :
    t.SpreadsOver (batch ++ [m, n]) ∧ ∀ (b : Index) (row j col : Nat),
      t.valueAt (b ++ [row, col]) = t.valueAt (b ++ [j, col]) := by
  rw [SpreadsOver, hs, List.append_cons batch k [n]] at hspread
  obtain ⟨-, hlast⟩ := broadcastShape_split (s := []) (r := [z]) hspread rfl
  refine ⟨?_, fun b row j col => ?_⟩
  · rw [SpreadsOver, hs, List.append_cons batch m [n]]
    exact broadcastShape_append (s := []) (broadcastShape_ones (by simp) (Nat.zero_le _)) hlast
  · have hdrop : ∀ a : Nat, (b ++ [a, col]).drop ((b ++ [a, col]).length - t.rank) = [col] := by
      intro a
      rw [rank, hs, List.append_cons b a [col]]
      exact List.drop_left' (by simp)
    rw [valueAt, valueAt, spread?, spread?, hdrop, hdrop]

theorem spreads_columns_of_matrix {outer : List Nat} {c m k n : Nat} (hs : t.shape = outer ++ [1, c])
    (hspread : t.SpreadsOver (batch ++ [k, n])) :
    t.SpreadsOver (batch ++ [m, n]) ∧ ∀ (b : Index) (row j col : Nat), b.Inside batch →
      t.valueAt (b ++ [row, col]) = t.valueAt (b ++ [j, col]) := by
  rw [SpreadsOver, hs] at hspread
  obtain ⟨hfirst, hlast⟩ := broadcastShape_split hspread rfl
  refine ⟨?_, fun b row j col hb => ?_⟩
  · rw [SpreadsOver, hs]
    refine broadcastShape_append hfirst (.cons (.inr rfl) ?_)
    cases hlast with
    | cons _ hlast => exact hlast
  · have hle : outer.length ≤ b.length :=
      (hb.length_eq : b.length = batch.length) ▸ (broadcastShape_eq_right.mp hfirst).1
    rw [valueAt, valueAt, spread?_plane hs hle, spread?_plane hs hle, if_pos rfl, if_pos rfl]

theorem column_layout (hfilled : t.Filled) (hne : t.size ≠ 1)
    (hguard : t.rank ≤ 1 ∨ t.shape[t.rank - 2]? = some 1) :
    (∃ z, t.shape = [z]) ∨ ∃ outer c, t.shape = outer ++ [1, c] := by
  rcases Nat.lt_or_ge t.rank 2 with hlt | hle
  · have hpos : t.rank ≠ 0 := fun hzero => hne (by rw [hfilled, List.length_eq_zero_iff.mp hzero]; rfl)
    exact .inl (List.length_eq_one_iff.mp (by change t.rank = 1; omega))
  · obtain ⟨outer, r, c, hs⟩ := exists_plane hle
    have hrow := hguard.resolve_left (Nat.not_le.mpr hle)
    rw [rank, hs, List.length_append] at hrow
    obtain rfl : r = 1 := by simpa using hrow
    exact .inr ⟨outer, c, hs⟩

theorem row_factor {m k n : Nat} (hfilled : t.Filled) (h : transposeIf flag t = .ok t')
    (hguard : t'.size = 1 ∨ t'.shape.getLast? = some 1)
    (hspread : t.SpreadsOver (batch ++ order (!flag) m k)) :
    t'.SpreadsOver (batch ++ [m, n]) ∧ ∀ (b : Index) (row col j : Nat), b.Inside batch → row < m → j < k →
      t'.valueAt (b ++ [row, col]) = t.valueAt (b ++ order (!flag) row j) := by
  obtain ⟨hfilled', hsize, hrank⟩ := size_of_transposeIf hfilled h
  by_cases hone : t.size = 1
  · obtain ⟨hspread', hvalue⟩ := single_factor hfilled h hone hspread
    exact ⟨hspread', fun _ _ _ _ _ _ _ => hvalue _ _⟩
  obtain ⟨init, hinit⟩ := List.getLast?_eq_some_iff.mp (hguard.resolve_left (hsize ▸ hone))
  have htwo : 2 ≤ t.rank := by
    rw [← hrank, rank, hinit, List.length_append]
    refine Nat.succ_le_succ (List.length_pos_iff.mpr ?_)
    rintro rfl
    rw [Tensor.Filled, hinit] at hfilled'
    exact hone (hsize ▸ hfilled')
  obtain ⟨hspread', hvalue⟩ := valueAt_transposeIf hfilled h (fun _ => htwo) hspread
  obtain ⟨hrows, hsame⟩ := spreads_rows hinit hspread'
  exact ⟨hrows, fun b row col j hb hrow hj => (hsame b row col j hb).trans (hvalue b row j hb hrow hj)⟩

theorem column_factor {m k n : Nat} (hfilled : t.Filled) (h : transposeIf flag t = .ok t')
    (hguard : t'.size = 1 ∨ t'.rank ≤ 1 ∨ t'.shape[t'.rank - 2]? = some 1)
    (hlayout : t.size = 1 ∨ 2 ≤ t.rank ∨ flag = false)
    (hspread : t.SpreadsOver (batch ++ order flag n k)) :
    t'.SpreadsOver (batch ++ [m, n]) ∧ ∀ (b : Index) (row col j : Nat), b.Inside batch → col < n → j < k →
      t'.valueAt (b ++ [row, col]) = t.valueAt (b ++ order flag col j) := by
  have horder : ∀ x y : Nat, order flag x y = order (!flag) y x := by cases flag <;> exact fun _ _ => rfl
  obtain ⟨hfilled', hsize, -⟩ := size_of_transposeIf hfilled h
  by_cases hone : t.size = 1
  · obtain ⟨hspread', hvalue⟩ := single_factor hfilled h hone hspread
    exact ⟨hspread', fun _ _ _ _ _ _ _ => hvalue _ _⟩
  have htwo : flag = true → 2 ≤ t.rank := by
    rintro rfl
    simpa [hone] using hlayout
  rw [horder] at hspread
  obtain ⟨hspread', hvalue⟩ := valueAt_transposeIf hfilled h htwo hspread
  obtain ⟨hcolumns, hsame⟩ : t'.SpreadsOver (batch ++ [m, n]) ∧ ∀ (b : Index) (row j col : Nat),
      b.Inside batch → t'.valueAt (b ++ [row, col]) = t'.valueAt (b ++ [j, col]) := by
    rcases column_layout hfilled' (hsize ▸ hone) (hguard.resolve_left (hsize ▸ hone)) with
      ⟨z, hs⟩ | ⟨outer, c, hs⟩
    · obtain ⟨hcolumns, hsame⟩ := spreads_columns_of_vector hs hspread'
      exact ⟨hcolumns, fun b row j col _ => hsame b row j col⟩
    · exact spreads_columns_of_matrix hs hspread'
  refine ⟨hcolumns, fun b row col j hb hcol hj => ?_⟩
  rw [horder, ← hvalue b j col hb hj hcol]
  exact hsame b row j col hb

structure Planned (g : Graph Rat) (id : NodeId) (plan : Plan Rat) (transposeA transposeB : Bool)
    (a b : Dequantization Rat) (rows columns joint : Tensor Rat) : Prop where
  op : (g.node? id).map Node.op = some (.matMul transposeA transposeB)
  left : Dequantization.ofInput g id 0 = some a
  right : Dequantization.ofInput g id 1 = some b
  zeroPoints : a.hasZeroPoint = false ∧ b.hasZeroPoint = false
  transposedA : transposeIf transposeA a.params.scale = .ok rows
  guardA : rows.size = 1 ∨ rows.shape.getLast? = some 1
  transposedB : transposeIf transposeB b.params.scale = .ok columns
  guardB : columns.size = 1 ∨ columns.rank ≤ 1 ∨ columns.shape[columns.rank - 2]? = some 1
  product : (rows.broadcastZip columns (· * ·)).run = .ok (.ok joint)
  plan : plan = ⟨[a.data, b.data], joint.toScalar⟩

theorem rowScale_eq_ok {scale rows : Tensor Rat} (h : rowScale scale flag = .ok (some rows)) :
    transposeIf flag scale = .ok rows ∧ (rows.size = 1 ∨ rows.shape.getLast? = some 1) := by
  obtain ⟨t, ht, h⟩ := except_bind_eq_ok.mp h
  have h := Except.ok.inj h
  split at h
  · next hguard =>
    cases h
    simpa [ht] using hguard
  · cases h

theorem columnScale_eq_ok {scale columns : Tensor Rat} (h : columnScale scale flag = .ok (some columns)) :
    transposeIf flag scale = .ok columns ∧
      (columns.size = 1 ∨ columns.rank ≤ 1 ∨ columns.shape[columns.rank - 2]? = some 1) := by
  obtain ⟨t, ht, h⟩ := except_bind_eq_ok.mp h
  have h := Except.ok.inj h
  split at h
  · next hguard =>
    cases h
    simpa [ht, or_assoc] using hguard
  · cases h

theorem planned_of_plan {g : Graph Rat} {id : NodeId} {plan : Plan Rat}
    (h : plan? g id = .ok (some plan)) : ∃ transposeA transposeB a b rows columns joint,
      Planned g id plan transposeA transposeB a b rows columns joint := by
  rw [plan?] at h
  split at h
  · next transposeA transposeB a b hop ha hb =>
    split at h
    · cases h
    next hzero =>
    rw [Bool.or_eq_true, not_or, Bool.not_eq_true, Bool.not_eq_true] at hzero
    obtain ⟨scale, hscale, h⟩ := except_bind_eq_ok.mp h
    obtain ⟨scale, rfl, rfl⟩ := Option.map_eq_some_iff.mp (Except.ok.inj h)
    rw [productScale?] at hscale
    split at hscale
    · next scaleA hscaleA =>
      obtain ⟨rows, hrows, hscale⟩ := except_bind_eq_ok.mp hscale
      split at hscale
      · next rows =>
        split at hscale
        · next scaleB hscaleB =>
          obtain ⟨columns, hcolumns, hscale⟩ := except_bind_eq_ok.mp hscale
          split at hscale
          · next columns =>
            obtain ⟨joint, hjoint, hscale⟩ := except_bind_eq_ok.mp hscale
            obtain ⟨joint, hoption, rfl⟩ := Option.map_eq_some_iff.mp (Except.ok.inj hscale)
            obtain rfl := except_toOption_eq_some.mp hoption
            obtain ⟨htransposed, hguard⟩ := rowScale_eq_ok hrows
            obtain ⟨htransposed', hguard'⟩ := columnScale_eq_ok hcolumns
            rw [← Dequantization.scale_params hscaleA] at htransposed
            rw [← Dequantization.scale_params hscaleB] at htransposed'
            exact ⟨transposeA, transposeB, a, b, rows, columns, joint, hop, ha, hb, hzero,
              htransposed, hguard, htransposed', hguard', hjoint, rfl⟩
          · cases hscale
        · cases hscale
      · cases hscale
    · cases hscale
  · cases h

end Scales

section Preservation

variable {transposeA transposeB : Bool} {left right : Operand} {batch : List Nat}

/-- Which of the axes an operand's scale runs along can be told from its layout: there is one scale, or
the operands have rows and columns and a scale along one axis is not one of a transposed operand. -/
def TellsAxes (left right : Operand) (transposeB : Bool) (a b : Tensor Rat) : Prop :=
  a.size = 1 ∧ b.size = 1 ∨
    (∃ outer m k, left = .matrices outer m k) ∧ (∃ outer n k, right = .matrices outer n k) ∧
      (b.size = 1 ∨ 2 ≤ b.rank ∨ transposeB = false)

theorem preserves_iff {a b : Dequantization Rat} (ha : a.hasZeroPoint = false) (hb : b.hasZeroPoint = false)
    (hleft : a.params.SpreadsOver (left.shape (!transposeA)))
    (hright : b.params.SpreadsOver (right.shape transposeB)) (hinner : left.inner = right.inner)
    (hbatch : broadcastShape left.outer right.outer = .ok batch) (scale : Tensor Rat) :
    Kernel.Preserves (product? transposeA transposeB) a.params b.params scale
        (left.shape (!transposeA)) (right.shape transposeB) ↔
      scale.SpreadsOver (contraction left right transposeA transposeB batch).shape ∧
        (contraction left right transposeA transposeB batch).Factors a.params.scale.valueAt
          b.params.scale.valueAt scale.valueAt := by
  rw [← Contraction.preserves_iff ha hb hleft hright (reads_contraction hinner hbatch)]
  refine forall₄_congr fun x y hx hy => ?_
  rw [Dequantization.dequantize_eq_scaled ha (hx ▸ hleft), Option.bind_some,
    Dequantization.dequantize_eq_scaled hb (hy ▸ hright), Option.bind_some,
    product?_eq (x := x.scaled _) (y := y.scaled _) hinner hbatch hx hy, product?_eq hinner hbatch hx hy]
  rfl

theorem factors_of_tellsAxes {g : Graph Rat} {id : NodeId} {plan : Plan Rat} {a b : Dequantization Rat}
    {rows columns joint : Tensor Rat}
    (h : Planned g id plan transposeA transposeB a b rows columns joint)
    (hfilled : a.params.scale.Filled ∧ b.params.scale.Filled)
    (hleft : a.params.scale.SpreadsOver (left.shape (!transposeA)))
    (hright : b.params.scale.SpreadsOver (right.shape transposeB)) (hinner : left.inner = right.inner)
    (hbatch : broadcastShape left.outer right.outer = .ok batch)
    (hlayout : TellsAxes left right transposeB a.params.scale b.params.scale) :
    plan.scale.SpreadsOver (contraction left right transposeA transposeB batch).shape ∧
      (contraction left right transposeA transposeB batch).Factors a.params.scale.valueAt
        b.params.scale.valueAt plan.scale.valueAt := by
  obtain ⟨hrows, hrowsSize, -⟩ := size_of_transposeIf hfilled.1 h.transposedA
  obtain ⟨hcolumns, hcolumnsSize, -⟩ := size_of_transposeIf hfilled.2 h.transposedB
  obtain ⟨hshape, hjoint, -⟩ := Tensor.broadcastZip_eq_ok hrows hcolumns h.product
  obtain ⟨hleftBatch, hrightBatch⟩ := broadcastShape_of_ok hbatch
  rw [h.plan, factors_iff hbatch hleft hright]
  rcases hlayout with ⟨hone, hone'⟩ | ⟨⟨outer, m, k, rfl⟩, ⟨outer', n, k', rfl⟩, hlayout⟩
  · obtain ⟨-, hrow⟩ := single_transposeIf hfilled.1 h.transposedA hone le_rfl
    obtain ⟨-, hcolumn⟩ := single_transposeIf hfilled.2 h.transposedB hone' le_rfl
    obtain ⟨v, hscalar, hv⟩ := Tensor.single_of_broadcastZip hrows hcolumns h.product
      (hrowsSize.trans hone) (hcolumnsSize.trans hone')
    rw [hscalar]
    refine ⟨Tensor.spreadsOver_scalar _ _, fun k row col j _ _ _ _ => ?_⟩
    rw [Tensor.valueAt_scalar, hv [] [], hrow _ (k ++ left.axes (!transposeA) row j),
      hcolumn _ (k ++ right.axes transposeB col j)]
  · -- both scales are constant along the axis that is summed over
    obtain rfl : k = k' := hinner
    have ha : a.params.scale.SpreadsOver (batch ++ Operand.order (!transposeA) m k) :=
      broadcastShape_trans hleft (Operand.spreads _ hleftBatch)
    have hb : b.params.scale.SpreadsOver (batch ++ Operand.order transposeB n k) :=
      broadcastShape_trans hright (Operand.spreads _ hrightBatch)
    obtain ⟨hrowSpread, hrow⟩ := row_factor (n := n) hfilled.1 h.transposedA h.guardA ha
    obtain ⟨hcolumnSpread, hcolumn⟩ := column_factor (m := m) hfilled.2 h.transposedB h.guardB hlayout hb
    have hspread : joint.SpreadsOver (batch ++ [m, n]) :=
      broadcastShape_of_joint hrowSpread hcolumnSpread hshape
    obtain ⟨hscalar, hscalarValue⟩ := Tensor.toScalar_spreadsOver hjoint hspread
    refine ⟨hscalar, fun b' row col j hb' hrow' hcol' hj => ?_⟩
    have hin : Index.Inside (b' ++ [row, col]) (batch ++ [m, n]) :=
      List.rel_append hb' (.cons hrow' (.cons hcol' .nil))
    change _ = joint.toScalar.valueAt (b' ++ [row, col])
    rw [hscalarValue _ hin, Tensor.valueAt_of_broadcastZip hrows hcolumns h.product hspread hin,
      hrow b' row col j hb' hrow' hj, hcolumn b' row col j hb' hcol' hj]
    rfl

end Preservation

end MatMul

namespace Rule

variable {s : Session Rat} {id : NodeId} {m : NodeMatch}

/-- A product of dequantized operands, each of the shape of its data, is kept exactly when the emitted
scale broadcasts to the product and is, for each element of it, the product of the scales of all
elements that meet in its sum. The layouts that the check lets through see to this where they tell the
axis that is summed over from the others. Where the product is kept, so is all that is read. -/
theorem product_preserved_iff {n : Node Rat} {transposeA transposeB : Bool} {a b : Dequantization Rat}
    {left right : MatMul.Operand} {batch : List Nat} (hg : s.graph.Regular) (hfilled : s.graph.Filled)
    (hm : matMul.pattern.matchAt s.graph id = some m)
    (hcan : matMul.canApply s.context s.graph m = .ok true) (hn : s.graph.node? id = some n)
    (hop : n.op = .matMul transposeA transposeB) (ha : Dequantization.ofInput s.graph id 0 = some a)
    (hb : Dequantization.ofInput s.graph id 1 = some b)
    (hleft : a.params.SpreadsOver (left.shape (!transposeA)))
    (hright : b.params.SpreadsOver (right.shape transposeB)) (hinner : left.inner = right.inner)
    (hbatch : broadcastShape left.outer right.outer = .ok batch) :
    ∃ plan s', MatMul.plan? s.graph id = .ok (some plan) ∧ exec (matMul.apply m) s = .ok (.ok true, s') ∧
      exec (lowerKernel id plan.operands plan.scale) s.graph = .ok (.ok (), s'.graph) ∧
      plan.operands = [a.data, b.data] ∧ s'.graph.Regular ∧
      (Kernel.Preserves (MatMul.product? transposeA transposeB) a.params b.params plan.scale
          (left.shape (!transposeA)) (right.shape transposeB) ↔
        plan.scale.SpreadsOver (MatMul.contraction left right transposeA transposeB batch).shape ∧
          (MatMul.contraction left right transposeA transposeB batch).Factors a.params.scale.valueAt
            b.params.scale.valueAt plan.scale.valueAt) ∧
      (MatMul.TellsAxes left right transposeB a.params.scale b.params.scale →
        Kernel.Preserves (MatMul.product? transposeA transposeB) a.params b.params plan.scale
          (left.shape (!transposeA)) (right.shape transposeB)) ∧
      (Kernel.Preserves (MatMul.product? transposeA transposeB) a.params b.params plan.scale
          (left.shape (!transposeA)) (right.shape transposeB) →
        ∀ I v v', Kernel.Observed I s.graph s'.graph v v' id n.op (MatMul.product? transposeA transposeB)
            a.data b.data (left.shape (!transposeA)) (right.shape transposeB) →
          KeepsReads s.graph s'.graph v v' id) := by
  obtain ⟨plan, s', hplan, hrun, hlower⟩ := lowers_matMul hg hm hcan
  obtain ⟨ta, tb, a', b', rows, columns, joint, hplanned⟩ := MatMul.planned_of_plan hplan
  have hop' := hplanned.op
  rw [hn, Option.map_some, hop] at hop'
  cases hop'
  cases ha.symm.trans hplanned.left
  cases hb.symm.trans hplanned.right
  obtain ⟨output, -, hda⟩ := Option.bind_eq_some_iff.mp ha
  obtain ⟨output', -, hdb⟩ := Option.bind_eq_some_iff.mp hb
  have hoperands : plan.operands = [a.data, b.data] := congrArg MatMul.Plan.operands hplanned.plan
  obtain ⟨hregular, hreads⟩ := Kernel.keepsReads_of_lowerKernel hg hn (.inl (congrArg Op.kind hop)) ha hb
    hleft hright hoperands hlower
  have hiff := MatMul.preserves_iff hplanned.zeroPoints.1 hplanned.zeroPoints.2 hleft hright hinner hbatch
    plan.scale
  refine ⟨plan, s', hplan, hrun, hlower, hoperands, hregular, hiff, fun hlayout => ?_, hreads⟩
  exact hiff.mpr (MatMul.factors_of_tellsAxes hplanned
    ⟨(Dequantization.filled_params hfilled hda).1, (Dequantization.filled_params hfilled hdb).1⟩
    hleft.1 hright.1 hinner hbatch hlayout)

section Sample

def transposedProduct (weightScale : Tensor Rat) : Graph Rat :=
  scaledOperands [2, 2] (.scalar (1 / 2)) ⟨[2, 2], [1, 2, 3, 4]⟩ weightScale (.matMul false true) [2, 2]

theorem isTransposedProduct {layout : List Nat} (h : layout ∈ [[2, 1], [2]]) :
    IsScaledOperands (transposedProduct ⟨layout, [1, 2]⟩) matMul (.scalar (1 / 2)) ⟨[2, 2], [1, 2, 3, 4]⟩
      ⟨layout, [1, 2]⟩ (.matMul false true) [2, 2] where
  regular := scaledOperands_regular
  filled := scaledOperands_filled (by simp) rfl rfl (by change 2 = layout.prod; revert layout; decide)
  input := by revert layout; decide +kernel
  weights := by revert layout; decide +kernel
  kernel := by revert layout; decide +kernel
  left := by revert layout; decide +kernel
  right := by revert layout; decide +kernel
  found := by revert layout; decide +kernel
  accepted := by revert layout; decide +kernel

def square : MatMul.Operand := .matrices [] 2 2

theorem broadcast_square : broadcastShape square.outer square.outer = .ok [] := rfl

theorem spreadsOver_square {t : Tensor Rat} (h : broadcastShape t.shape [2, 2] = .ok [2, 2])
    (innerLast : Bool) : (⟨t, none⟩ : AffineParams Rat).SpreadsOver (square.shape innerLast) := by
  refine ⟨?_, by simp⟩
  cases innerLast <;> exact h

theorem product_preserved_of_transposed :
    ∃ s : Session Rat, ∃ m n a b, ∃ left right : MatMul.Operand, ∃ batch, s.graph.Regular ∧
      s.graph.Filled ∧ matMul.pattern.matchAt s.graph 8 = some m ∧
      matMul.canApply s.context s.graph m = .ok true ∧ s.graph.node? 8 = some n ∧
      n.op = .matMul false true ∧ Dequantization.ofInput s.graph 8 0 = some a ∧
      Dequantization.ofInput s.graph 8 1 = some b ∧ a.params.SpreadsOver (left.shape true) ∧
      b.params.SpreadsOver (right.shape true) ∧ left.inner = right.inner ∧
      broadcastShape left.outer right.outer = .ok batch ∧
      MatMul.TellsAxes left right true a.params.scale b.params.scale ∧
      ∃ plan s', MatMul.plan? s.graph 8 = .ok (some plan) ∧ exec (matMul.apply m) s = .ok (.ok true, s') ∧
        exec (lowerKernel 8 plan.operands plan.scale) s.graph = .ok (.ok (), s'.graph) ∧
        Kernel.Preserves (MatMul.product? false true) a.params b.params plan.scale (left.shape true)
          (right.shape true) ∧
        ∃ I v v', Kernel.Observed I s.graph s'.graph v v' 8 n.op (MatMul.product? false true) a.data b.data
          (left.shape true) (right.shape true) ∧ KeepsReads s.graph s'.graph v v' 8 := by
  generalize hdef : transposedProduct ⟨[2, 1], [1, 2]⟩ = g
  have h : IsScaledOperands g matMul (.scalar (1 / 2)) ⟨[2, 2], [1, 2, 3, 4]⟩ ⟨[2, 1], [1, 2]⟩
      (.matMul false true) [2, 2] := hdef ▸ isTransposedProduct (by simp)
  have hleft : AffineParams.SpreadsOver ⟨.scalar (1 / 2), none⟩ (square.shape (!false)) :=
    spreadsOver_square rfl _
  have hright : AffineParams.SpreadsOver ⟨⟨[2, 1], [1, 2]⟩, none⟩ (square.shape true) :=
    spreadsOver_square rfl _
  have hlayout : MatMul.TellsAxes square square true (.scalar (1 / 2)) ⟨[2, 1], [1, 2]⟩ :=
    .inr ⟨⟨_, _, _, rfl⟩, ⟨_, _, _, rfl⟩, .inr (.inl le_rfl)⟩
  obtain ⟨plan, s', hplan, hrun, hlower, -, hregular, -, hpreserves, hreads⟩ := product_preserved_iff
    (s := ⟨g, .start .default⟩) h.regular h.filled h.found h.accepted h.kernel rfl h.left h.right hleft hright
    rfl broadcast_square
  let input : Values := .of [2, 2] fun _ => 1
  have hop : ∀ x y xs, (Interpretation.ofKernel input (MatMul.product? false true)).run 8 (.matMul false true)
      (some x :: some y :: xs) 0 = MatMul.product? false true x y := fun _ _ _ => rfl
  obtain ⟨I, v, v', hobserved⟩ := h.exists_observed hregular input hop
  exact ⟨⟨g, .start .default⟩, _, _, _, _, square, square, [], h.regular, h.filled, h.found, h.accepted,
    h.kernel, rfl, h.left, h.right, hleft, hright, rfl, rfl, hlayout, plan, s', hplan, hrun, hlower,
    hpreserves hlayout, I, v, v', hobserved, hreads (hpreserves hlayout) I v v' hobserved⟩

theorem scales_of_rows_cross_sums :
    ∃ s : Session Rat, ∃ m n a b, ∃ left right : MatMul.Operand, ∃ batch, s.graph.Regular ∧
      s.graph.Filled ∧ matMul.pattern.matchAt s.graph 8 = some m ∧
      matMul.canApply s.context s.graph m = .ok true ∧ s.graph.node? 8 = some n ∧
      n.op = .matMul false true ∧ Dequantization.ofInput s.graph 8 0 = some a ∧
      Dequantization.ofInput s.graph 8 1 = some b ∧ a.params.SpreadsOver (left.shape true) ∧
      b.params.SpreadsOver (right.shape true) ∧ left.inner = right.inner ∧
      broadcastShape left.outer right.outer = .ok batch ∧
      ∃ plan s', MatMul.plan? s.graph 8 = .ok (some plan) ∧ exec (matMul.apply m) s = .ok (.ok true, s') ∧
        exec (lowerKernel 8 plan.operands plan.scale) s.graph = .ok (.ok (), s'.graph) ∧
        ¬ Kernel.Preserves (MatMul.product? false true) a.params b.params plan.scale (left.shape true)
          (right.shape true) := by
  generalize hdef : transposedProduct ⟨[2], [1, 2]⟩ = g
  have h : IsScaledOperands g matMul (.scalar (1 / 2)) ⟨[2, 2], [1, 2, 3, 4]⟩ ⟨[2], [1, 2]⟩
      (.matMul false true) [2, 2] := hdef ▸ isTransposedProduct (by simp)
  have hleft : AffineParams.SpreadsOver ⟨.scalar (1 / 2), none⟩ (square.shape (!false)) :=
    spreadsOver_square rfl _
  have hright : AffineParams.SpreadsOver ⟨⟨[2], [1, 2]⟩, none⟩ (square.shape true) :=
    spreadsOver_square rfl _
  obtain ⟨plan, s', hplan, hrun, hlower⟩ := lowers_matMul (s := ⟨g, .start .default⟩) h.regular h.found
    h.accepted
  refine ⟨⟨g, .start .default⟩, _, _, _, _, square, square, [], h.regular, h.filled, h.found, h.accepted,
    h.kernel, rfl, h.left, h.right, hleft, hright, rfl, rfl, plan, s', hplan, hrun, hlower,
    fun hpreserves => ?_⟩
  have hiff := MatMul.preserves_iff (a := ⟨⟨0, 0⟩, some 1, none, some (3, .scalar (1 / 2))⟩)
    (b := ⟨⟨4, 0⟩, some 5, none, some (7, ⟨[2], [1, 2]⟩)⟩) rfl rfl hleft hright rfl broadcast_square
    plan.scale
  have hfactors := (MatMul.factors_iff broadcast_square hleft.1 hright.1 _).mp (hiff.mp hpreserves).2
  have hzero := hfactors [] 0 0 0 .nil Nat.two_pos Nat.two_pos Nat.two_pos
  have hone := hfactors [] 0 0 1 .nil Nat.two_pos Nat.two_pos Nat.one_lt_two
  have hsame := hzero.trans hone.symm
  revert hsame
  decide +kernel

end Sample

end Rule

end LowPrecision
