-- A ring of cells that a counter goes around, and what it holds of a stream: the
-- newest entries. Each cell by itself sees every so many entries, its phase of the
-- stream. Nothing here names a particular ring.
import Mathlib

namespace rings

variable {α : Type*}

/-- The counter goes up with each entry, and its place in the ring is its remainder. -/
structure Buffer (α : Type*) where
  cells : List α
  count : ℕ := 0

namespace Buffer

def write (b : Buffer α) (x : α) : Buffer α where
  cells := b.cells.set (b.count % b.cells.length) x
  count := b.count + 1

@[simp] theorem count_write (b : Buffer α) (x : α) : (b.write x).count = b.count + 1 := rfl

@[simp] theorem length_write (b : Buffer α) (x : α) :
    (b.write x).cells.length = b.cells.length := by
  simp [write]

/-- The cells from the oldest entry to the newest. -/
def view (b : Buffer α) : List α := b.cells.rotate b.count

@[simp] theorem view_start (cells : List α) : ({ cells := cells } : Buffer α).view = cells :=
  List.rotate_zero cells

/-- The oldest entry goes, and the new one is the last. -/
theorem view_write {b : Buffer α} (h : b.cells ≠ []) (x : α) :
    (b.write x).view = b.view.tail ++ [x] := by
  have hlt : b.count % b.cells.length < b.cells.length :=
    Nat.mod_lt _ (List.length_pos_of_ne_nil h)
  obtain ⟨newer, old, older, hcells, hplace⟩ : ∃ newer old older,
      b.cells = newer ++ old :: older ∧ newer.length = b.count % b.cells.length :=
    ⟨_, _, _, by rw [← List.drop_eq_getElem_cons hlt, List.take_append_drop],
      List.length_take_of_le hlt.le⟩
  have hold : b.view = old :: older ++ newer := by
    unfold view
    rw [← List.rotate_mod, ← hplace, hcells, List.rotate_append_length_eq]
  have hset : b.cells.set (b.count % b.cells.length) x = newer ++ x :: older := by
    rw [← hplace, hcells, List.set_append_right _ _ le_rfl, Nat.sub_self, List.set_cons_zero]
  have hnew : (b.write x).cells.rotate b.count = x :: older ++ newer := by
    rw [← List.rotate_mod, length_write, ← hplace]
    exact (congrArg (List.rotate · _) hset).trans (List.rotate_append_length_eq newer _)
  calc (b.write x).view = ((b.write x).cells.rotate b.count).rotate 1 :=
        (List.rotate_rotate _ _ _).symm
    _ = b.view.tail ++ [x] := by rw [hnew, hold]; simp

/-- What a ring holds after a stream of entries: as many of the newest as it has cells. -/
theorem view_foldl_write (l : List α) {b : Buffer α} (h : b.cells ≠ []) :
    (l.foldl write b).view = (b.view ++ l).drop l.length := by
  induction l generalizing b with
  | nil => simp
  | cons x l ih =>
    have hcells : (b.write x).cells ≠ [] := by simpa [write] using h
    have hview : b.view ≠ [] := by simpa [view] using h
    rw [List.foldl_cons, ih hcells, view_write h]
    cases hb : b.view with
    | nil => exact absurd hb hview
    | cons y older => simp

@[simp] theorem mem_view {b : Buffer α} {x : α} : x ∈ b.view ↔ x ∈ b.cells := List.mem_rotate

end Buffer

/-! ## A window of the newest entries -/

theorem length_rtake (l : List α) (n : ℕ) : (l.rtake n).length = min n l.length := by
  unfold List.rtake
  rw [List.length_drop]
  omega

/-- A new entry comes in last, and the oldest one goes when there is one too many. -/
theorem rtake_concat (l : List α) (x : α) (n : ℕ) :
    (l ++ [x]).rtake n =
      if n < (l.rtake n ++ [x]).length then (l.rtake n ++ [x]).tail else l.rtake n ++ [x] := by
  have hlength : (l.rtake n ++ [x]).length = min n l.length + 1 := by
    rw [List.length_append, length_rtake, List.length_singleton]
  unfold List.rtake at hlength ⊢
  rw [hlength, List.length_append, List.length_singleton]
  split
  · have hplace : l.length + 1 - n = l.length - n + 1 := by omega
    rw [hplace, ← List.drop_append_of_le_length (Nat.sub_le _ _), List.tail_drop]
  · have hplace : l.length + 1 - n = l.length - n := by omega
    rw [hplace, List.drop_append_of_le_length (Nat.sub_le _ _)]

/-! ## The phases of a stream -/

/-- The entries of phase `i`: those whose position has the remainder `i`. -/
def phase (p i : ℕ) (l : List α) : List α :=
  (List.range l.length).filterMap fun k => if k % p = i then l[k]? else none

theorem phase_concat (p i : ℕ) (l : List α) (x : α) :
    phase p i (l ++ [x]) = phase p i l ++ if l.length % p = i then [x] else [] := by
  have hold : (List.range l.length).filterMap
      (fun k => if k % p = i then (l ++ [x])[k]? else none) = phase p i l := by
    apply List.filterMap_congr
    intro k hk
    rw [List.getElem?_append_left (List.mem_range.mp hk)]
  unfold phase at hold ⊢
  rw [List.length_append, List.length_singleton, List.range_succ, List.filterMap_append, hold]
  by_cases h : l.length % p = i <;> simp [h]

/-- A phase has begun when the stream has come to its first position. -/
theorem phase_eq_nil_iff {p i : ℕ} (hi : i < p) (l : List α) :
    phase p i l = [] ↔ l.length ≤ i := by
  induction l using List.reverseRecOn with
  | nil => simp [phase]
  | append_singleton l x ih =>
    rw [phase_concat, List.append_eq_nil_iff, ih, List.length_append, List.length_singleton]
    by_cases hle : l.length ≤ i
    · rw [Nat.mod_eq_of_lt (by omega)]
      by_cases heq : l.length = i
      · simp [heq]
      · simp [heq]
        omega
    · simp [hle]
      omega

/-- A phase depends on its own positions only. -/
theorem phase_congr {p i : ℕ} {l l' : List α} (hlength : l.length = l'.length)
    (h : ∀ k, k % p = i → l[k]? = l'[k]?) : phase p i l = phase p i l' := by
  unfold phase
  rw [hlength]
  apply List.filterMap_congr
  intro k _
  split
  · exact h k ‹_›
  · rfl

end rings
