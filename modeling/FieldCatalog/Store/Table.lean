/-!
# Tables

A table holds its rows in strictly ascending order of their keys, so that equal tables are equal
lists and no key occurs twice.

## Main definitions

* `Table`: rows in order of their keys
* `Table.find?`, `Table.nextKey`: look-up, and the key of the next new row
* `Table.put`, `Table.modify`, `Table.eraseWhere`: the changes

## Main results

* `Table.mem_put`, `Table.mem_modify`, `Table.mem_eraseWhere`: the rows after each change
-/

namespace FieldCatalog

/-- Rows in strictly ascending order of their keys. -/
@[ext]
structure Table (α : Type) (key : α → Int) where
  rows : List α
  ascending : rows.Pairwise fun a b => key a < key b

namespace Table

variable {α : Type} {key : α → Int}

/-- The table without rows. -/
def empty : Table α key := ⟨[], .nil⟩

instance : Inhabited (Table α key) := ⟨empty⟩

instance [DecidableEq α] : DecidableEq (Table α key) := fun a b =>
  decidable_of_iff (a.rows = b.rows) ⟨Table.ext, congrArg rows⟩

instance : Membership α (Table α key) := ⟨fun t row => row ∈ t.rows⟩

theorem mem_def {t : Table α key} {row : α} : row ∈ t ↔ row ∈ t.rows := Iff.rfl

/-- The row with the given key. -/
def find? (t : Table α key) (k : Int) : Option α :=
  t.rows.find? fun row => key row == k

/-- One more than the largest key, and one for an empty table. Keys are taken to stay below the
largest number of 64 bits, behind which no next one could be counted. -/
def nextKey (t : Table α key) : Int :=
  match t.rows.getLast? with
  | none => 1
  | some row => key row + 1

/-- Rows with one more row at its place, in the stead of a row of the same key. -/
def insertRow (key : α → Int) (row : α) : List α → List α
  | [] => [row]
  | other :: rest =>
    if key row < key other then row :: other :: rest
    else if key row = key other then row :: rest
    else other :: insertRow key row rest

theorem mem_insertRow {row x : α} {rows : List α}
    (h : rows.Pairwise fun a b => key a < key b) :
    x ∈ insertRow key row rows ↔ x = row ∨ (x ∈ rows ∧ key x ≠ key row) := by
  induction rows with
  | nil => simp [insertRow]
  | cons other rest ih =>
    obtain ⟨hl, hr⟩ := List.pairwise_cons.mp h
    unfold insertRow
    split
    · next hlt =>
      have hne : ∀ y ∈ other :: rest, key y ≠ key row := by
        intro y hy
        rcases List.mem_cons.mp hy with rfl | hy
        · omega
        · have := hl y hy
          omega
      constructor
      · intro hx
        rcases List.mem_cons.mp hx with rfl | hx
        · exact .inl rfl
        · exact .inr ⟨hx, hne x hx⟩
      · rintro (rfl | ⟨hx, _⟩)
        · exact List.mem_cons_self
        · exact List.mem_cons_of_mem _ hx
    · split
      · next heq =>
        constructor
        · intro hx
          rcases List.mem_cons.mp hx with rfl | hx
          · exact .inl rfl
          · have := hl x hx
            exact .inr ⟨List.mem_cons_of_mem _ hx, by omega⟩
        · rintro (rfl | ⟨hx, hk⟩)
          · exact List.mem_cons_self
          · rcases List.mem_cons.mp hx with rfl | hx
            · exact absurd heq.symm hk
            · exact List.mem_cons_of_mem _ hx
      · next hne =>
        rw [List.mem_cons, ih hr, List.mem_cons]
        constructor
        · rintro (rfl | rfl | ⟨hx, hk⟩)
          · exact .inr ⟨.inl rfl, fun e => hne e.symm⟩
          · exact .inl rfl
          · exact .inr ⟨.inr hx, hk⟩
        · rintro (rfl | ⟨rfl | hx, hk⟩)
          · exact .inr (.inl rfl)
          · exact .inl rfl
          · exact .inr (.inr ⟨hx, hk⟩)

theorem pairwise_insertRow {row : α} {rows : List α}
    (h : rows.Pairwise fun a b => key a < key b) :
    (insertRow key row rows).Pairwise fun a b => key a < key b := by
  induction rows with
  | nil => simp [insertRow]
  | cons other rest ih =>
    obtain ⟨hl, hr⟩ := List.pairwise_cons.mp h
    unfold insertRow
    split
    · next hlt =>
      refine List.pairwise_cons.mpr ⟨fun y hy => ?_, h⟩
      rcases List.mem_cons.mp hy with rfl | hy
      · exact hlt
      · exact Int.lt_trans hlt (hl y hy)
    · split
      · next heq => exact List.pairwise_cons.mpr ⟨fun y hy => heq ▸ hl y hy, hr⟩
      · refine List.pairwise_cons.mpr ⟨fun y hy => ?_, ih hr⟩
        rcases (mem_insertRow hr).mp hy with rfl | ⟨hy, _⟩
        · omega
        · exact hl y hy

/-- The table with a row, in the stead of the row of the same key. -/
def put (t : Table α key) (row : α) : Table α key :=
  ⟨insertRow key row t.rows, pairwise_insertRow t.ascending⟩

/-- The rows after `put`: the new one, and the old ones of other keys. -/
theorem mem_put {t : Table α key} {row x : α} :
    x ∈ t.put row ↔ x = row ∨ (x ∈ t ∧ key x ≠ key row) :=
  mem_insertRow t.ascending

/-- The table with the row of one key replaced by its image under a function that keeps keys. -/
def modify (t : Table α key) (k : Int) (f : α → α) (keeps : ∀ row, key (f row) = key row) :
    Table α key :=
  ⟨t.rows.map fun row => if key row = k then f row else row, by
    refine List.pairwise_map.mpr (t.ascending.imp fun {a b} h => ?_)
    split <;> split <;> simpa [keeps] using h⟩

theorem mem_modify {t : Table α key} {k : Int} {f : α → α} {keeps : ∀ row, key (f row) = key row}
    {x : α} :
    x ∈ t.modify k f keeps ↔ (x ∈ t ∧ key x ≠ k) ∨ ∃ row ∈ t, key row = k ∧ x = f row := by
  simp only [mem_def, modify, List.mem_map]
  constructor
  · rintro ⟨row, hrow, rfl⟩
    split
    · next h => exact .inr ⟨row, hrow, h, rfl⟩
    · next h => exact .inl ⟨hrow, h⟩
  · rintro (⟨hx, hk⟩ | ⟨row, hrow, hk, rfl⟩)
    · exact ⟨x, hx, by rw [if_neg hk]⟩
    · exact ⟨row, hrow, by rw [if_pos hk]⟩

/-- The table without the rows that satisfy a test. -/
def eraseWhere (t : Table α key) (p : α → Bool) : Table α key :=
  ⟨t.rows.filter fun row => !p row, t.ascending.filter _⟩

theorem mem_eraseWhere {t : Table α key} {p : α → Bool} {x : α} :
    x ∈ t.eraseWhere p ↔ x ∈ t ∧ p x = false := by
  simp [mem_def, eraseWhere, List.mem_filter]

/-- The table without the row of a key. -/
def erase (t : Table α key) (k : Int) : Table α key :=
  t.eraseWhere fun row => key row == k

theorem mem_erase {t : Table α key} {k : Int} {x : α} :
    x ∈ t.erase k ↔ x ∈ t ∧ key x ≠ k := by
  simp [erase, mem_eraseWhere]

/-- Look-up finds exactly the row of the key. -/
theorem find?_eq_some_iff {t : Table α key} {k : Int} {row : α} :
    t.find? k = some row ↔ row ∈ t ∧ key row = k := by
  constructor
  · intro h
    exact ⟨List.mem_of_find?_eq_some h, by simpa using List.find?_some h⟩
  · rintro ⟨hm, hk⟩
    obtain ⟨rows, ascending⟩ := t
    simp only [mem_def] at hm
    simp only [find?]
    induction rows with
    | nil => cases hm
    | cons other rest ih =>
      obtain ⟨hl, hr⟩ := List.pairwise_cons.mp ascending
      rcases List.mem_cons.mp hm with rfl | hm
      · simp [hk]
      · have hlt := hl row hm
        rw [List.find?_cons_of_neg (by simp only [beq_iff_eq]; omega)]
        exact ih hr hm

theorem find?_eq_none_iff {t : Table α key} {k : Int} :
    t.find? k = none ↔ ∀ row ∈ t, key row ≠ k := by
  simp [find?, mem_def]

/-- Every key of a table is below the key of the next new row. -/
theorem lt_nextKey {t : Table α key} {row : α} (h : row ∈ t) : key row < t.nextKey := by
  obtain ⟨rows, ascending⟩ := t
  simp only [mem_def] at h
  rcases List.eq_nil_or_concat rows with rfl | ⟨front, last, rfl⟩
  · cases h
  · rw [List.concat_eq_append] at h ascending
    simp only [nextKey, List.concat_eq_append, List.getLast?_append, List.getLast?_singleton,
      Option.some_or]
    rcases List.mem_append.mp h with h | h
    · have := (List.pairwise_append.mp ascending).2.2 row h last (by simp)
      omega
    · rw [List.mem_singleton.mp h]
      omega

end Table

end FieldCatalog
