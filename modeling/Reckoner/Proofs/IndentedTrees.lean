/-! Trees written as rows, one for each node, with the depth at which it stands. The depths tell which rows are the
children of which, so the rows determine the tree. -/

namespace Reckoner

/-- A tree with a label at each node. -/
inductive Labelled (α : Type) where
  | node (label : α) (children : List (Labelled α))

namespace Labelled
variable {α : Type}

mutual

/-- The labels from the top down, each with its depth; the topmost stands at the given depth. -/
def rows (depth : Nat) : Labelled α → List (Nat × α)
  | node label children => (depth, label) :: rowsOfAll (depth + 1) children

def rowsOfAll (depth : Nat) : List (Labelled α) → List (Nat × α)
  | [] => []
  | t :: ts => t.rows depth ++ rowsOfAll depth ts

end

mutual

theorem rows_add (j : Nat) : ∀ (t : Labelled α) (depth : Nat),
    t.rows (j + depth) = (t.rows depth).map fun row => (j + row.1, row.2)
  | node label children, depth => by
    rw [rows, rows, List.map_cons, Nat.add_assoc, rowsOfAll_add j children]

theorem rowsOfAll_add (j : Nat) : ∀ (ts : List (Labelled α)) (depth : Nat),
    rowsOfAll (j + depth) ts = (rowsOfAll depth ts).map fun row => (j + row.1, row.2)
  | [], _ => rfl
  | t :: ts, depth => by
    rw [rowsOfAll, rowsOfAll, List.map_append, rows_add j t, rowsOfAll_add j ts]

end

theorem mem_rowsOfAll {row : Nat × α} {depth : Nat} {ts : List (Labelled α)} :
    row ∈ rowsOfAll depth ts ↔ ∃ t, t ∈ ts ∧ row ∈ t.rows depth := by
  induction ts with
  | nil => simp [rowsOfAll]
  | cons t ts ih => simp only [rowsOfAll, List.mem_append, ih, List.mem_cons, exists_eq_or_imp]

/-- Rows that start less deep than that, or that are none at all. -/
def StartsAbove (depth : Nat) (rows : List (Nat × α)) : Prop :=
  ∀ row, rows.head? = some row → row.1 < depth

theorem StartsAbove.rowsOfAll_append {depth : Nat} {r : List (Nat × α)} (h : StartsAbove depth r)
    (ts : List (Labelled α)) : StartsAbove (depth + 1) (rowsOfAll depth ts ++ r) := by
  cases ts with
  | nil => exact fun row hrow => Nat.lt_succ_of_lt (h row hrow)
  | cons t ts =>
    cases t with
    | node label children =>
      rintro row ⟨⟩
      exact Nat.lt_succ_self depth

mutual

/-- A tree ends where a row stands no deeper than its top. -/
theorem rows_append_inj : ∀ (t u : Labelled α) {depth : Nat} {r r' : List (Nat × α)},
    StartsAbove (depth + 1) r → StartsAbove (depth + 1) r' → t.rows depth ++ r = u.rows depth ++ r' →
      t = u ∧ r = r'
  | node label ts, node label' us, depth, r, r', hr, hr', h => by
    rw [rows, rows, List.cons_append, List.cons_append] at h
    obtain ⟨hrow, hrest⟩ := List.cons.inj h
    obtain ⟨rfl, hends⟩ := rowsOfAll_append_inj ts us hr hr' hrest
    exact ⟨by rw [(Prod.mk.inj hrow).2], hends⟩

theorem rowsOfAll_append_inj : ∀ (ts us : List (Labelled α)) {depth : Nat} {r r' : List (Nat × α)},
    StartsAbove depth r → StartsAbove depth r' → rowsOfAll depth ts ++ r = rowsOfAll depth us ++ r' →
      ts = us ∧ r = r'
  | [], [], _, _, _, _, _, h => ⟨rfl, h⟩
  | [], node label us :: _, depth, r, _, hr, _, h => by
    -- the row of a further child would stand less deep than the children do
    have hhead : r.head? = some (depth, label) := by
      change r = _ at h
      rw [h]
      rfl
    exact absurd (hr _ hhead) (Nat.lt_irrefl depth)
  | node label ts :: _, [], depth, _, r', _, hr', h => by
    have hhead : r'.head? = some (depth, label) := by
      change _ = r' at h
      rw [← h]
      rfl
    exact absurd (hr' _ hhead) (Nat.lt_irrefl depth)
  | t :: ts, u :: us, depth, r, r', hr, hr', h => by
    rw [rowsOfAll, rowsOfAll, List.append_assoc, List.append_assoc] at h
    obtain ⟨rfl, hrest⟩ := rows_append_inj t u (hr.rowsOfAll_append ts) (hr'.rowsOfAll_append us) h
    obtain ⟨rfl, hends⟩ := rowsOfAll_append_inj ts us hr hr' hrest
    exact ⟨rfl, hends⟩

end

theorem rows_inj {t u : Labelled α} {depth : Nat} (h : t.rows depth = u.rows depth) : t = u := by
  have hends : StartsAbove (depth + 1) ([] : List (Nat × α)) := nofun
  exact (rows_append_inj t u hends hends (by rw [h])).1

end Labelled

end Reckoner
