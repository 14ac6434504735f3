-- The table of the klines (`dataset/sql_dataset.cc`), as a sorted map from the
-- primary key `open_time` to the row.
import Wedge.Common
import Wedge.Lib.Containers

namespace wedge

open containers

/-- The table `klines`. A new file has none, and the constructor creates it. -/
structure SqlDataset where
  klines : Map ℤ Candle := ∅
  deriving DecidableEq, Repr

namespace SqlDataset

/-- `done` says whether `sqlite3_step` can store a row at all. It does not store a second row
under the same key. The function ignores the result in both cases. -/
def insert (candle : Candle) (done : Bool) (data : SqlDataset) : SqlDataset :=
  if done then { data with klines := sorted.emplace candle.open_time candle data.klines } else data

/-- The rows in the order of the key. -/
def rows (data : SqlDataset) : List Candle := data.klines.entries.map Prod.snd

/-- `SELECT MAX(close_time)`, and zero for `NULL`. -/
def get_max_start_time (data : SqlDataset) : ℤ := (data.rows.map Candle.close_time).max?.getD 0

/-- There is a row under the key. -/
def Has (data : SqlDataset) (open_time : ℤ) : Prop := open_time ∈ data.klines.keys

instance (data : SqlDataset) (open_time : ℤ) : Decidable (data.Has open_time) :=
  inferInstanceAs (Decidable (open_time ∈ data.klines.keys))

variable {data : SqlDataset} {candle : Candle} {done : Bool} {open_time : ℤ}

theorem insert_failed : data.insert candle false = data := rfl

theorem insert_again (h : data.Has candle.open_time) : data.insert candle done = data := by
  cases done with
  | false => rfl
  | true =>
    have hsame : sorted.emplace candle.open_time candle data.klines = data.klines := dif_pos h
    simp [insert, hsame]

theorem mem_insert (h : ¬ data.Has candle.open_time) {e : ℤ × Candle} :
    e ∈ (data.insert candle true).klines ↔ e = (candle.open_time, candle) ∨ e ∈ data.klines :=
  sorted.mem_emplace h

/-- Nothing is deleted and nothing is replaced. -/
theorem insert_keeps {e : ℤ × Candle} (he : e ∈ data.klines) :
    e ∈ (data.insert candle done).klines := by
  by_cases h : data.Has candle.open_time
  · rwa [insert_again h]
  · cases done with
    | false => exact he
    | true => exact (mem_insert h).mpr (Or.inr he)

theorem has_insert : (data.insert candle done).Has open_time ↔
    data.Has open_time ∨ (done = true ∧ open_time = candle.open_time) := by
  by_cases h : data.Has candle.open_time
  · rw [insert_again h]
    refine ⟨Or.inl, ?_⟩
    rintro (hold | ⟨_, rfl⟩)
    · exact hold
    · exact h
  · cases done with
    | false => simp [insert_failed]
    | true =>
      have hkeys : (data.insert candle true).Has open_time ↔
          open_time = candle.open_time ∨ data.Has open_time := sorted.mem_keys_emplace h
      rw [hkeys, or_comm]
      simp

theorem has_iff : data.Has open_time ↔ ∃ row, (open_time, row) ∈ data.klines := Map.mem_keys

theorem mem_rows {row : Candle} :
    row ∈ data.rows ↔ ∃ open_time, (open_time, row) ∈ data.klines := by
  unfold rows
  rw [List.mem_map]
  constructor
  · rintro ⟨⟨key, row⟩, he, rfl⟩
    exact ⟨key, he⟩
  · rintro ⟨key, he⟩
    exact ⟨_, he, rfl⟩

/-- The start of a download: zero for an empty table, or the end of a row that ends last. -/
theorem max_start_time_cases (data : SqlDataset) :
    (data.rows = [] ∧ data.get_max_start_time = 0) ∨
      ∃ row ∈ data.rows, row.close_time = data.get_max_start_time ∧
        ∀ other ∈ data.rows, other.close_time ≤ data.get_max_start_time := by
  rcases hm : (data.rows.map Candle.close_time).max? with _ | m
  · rw [List.max?_eq_none_iff, List.map_eq_nil_iff] at hm
    exact Or.inl ⟨hm, by simp [get_max_start_time, hm]⟩
  · have hmax : data.get_max_start_time = m := by simp [get_max_start_time, hm]
    obtain ⟨hmem, hle⟩ := List.max?_eq_some_iff.mp hm
    obtain ⟨row, hrow, rfl⟩ := List.mem_map.mp hmem
    refine Or.inr ⟨row, hrow, hmax.symm, fun other hother => ?_⟩
    rw [hmax]
    exact hle _ (List.mem_map_of_mem hother)

end SqlDataset

end wedge
