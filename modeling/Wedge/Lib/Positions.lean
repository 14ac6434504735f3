-- Some positions of a list, and the new positions of the entries there when the
-- other entries are left out.
import Mathlib

namespace positions

variable {α β : Type*} (p : ℕ → Bool)

/-- How many chosen positions stand before `i`. It is the new position of entry `i`. -/
def rank (i : ℕ) : ℕ := (List.range i).countP p

theorem rank_succ (i : ℕ) : rank p (i + 1) = rank p i + if p i then 1 else 0 := by
  simp [rank, List.range_succ, List.countP_singleton]

theorem rank_mono {i j : ℕ} (h : i ≤ j) : rank p i ≤ rank p j := by
  induction j with
  | zero =>
    obtain rfl := Nat.le_zero.mp h
    exact le_rfl
  | succ j ih =>
    rcases Nat.lt_or_ge j i with hlt | hge
    · obtain rfl : i = j + 1 := by omega
      exact le_rfl
    · have := ih hge
      rw [rank_succ]
      omega

variable {p}

theorem rank_lt {i j : ℕ} (hi : p i = true) (h : i < j) : rank p i < rank p j := by
  have h1 : rank p (i + 1) ≤ rank p j := rank_mono p h
  rw [rank_succ, if_pos hi] at h1
  omega

/-- Two chosen positions stay apart. -/
theorem rank_inj {i j : ℕ} (hi : p i = true) (hj : p j = true) (h : rank p i = rank p j) :
    i = j := by
  rcases Nat.lt_trichotomy i j with hlt | heq | hlt
  · have := rank_lt hi hlt
    omega
  · exact heq
  · have := rank_lt hj hlt
    omega

/-- Every new position is the new position of a chosen entry. -/
theorem rank_surj {n k : ℕ} (h : k < rank p n) : ∃ i < n, p i = true ∧ rank p i = k := by
  induction n with
  | zero => exact absurd h (Nat.not_lt_zero k)
  | succ n ih =>
    rw [rank_succ] at h
    by_cases hk : k < rank p n
    · obtain ⟨i, hi, h1⟩ := ih hk
      exact ⟨i, by omega, h1⟩
    · split at h
      · rename_i hp
        exact ⟨n, by omega, hp, by omega⟩
      · omega

theorem mem_map_rank {l : List ℕ} {i : ℕ} (hl : ∀ j ∈ l, p j = true) (hi : p i = true) :
    rank p i ∈ l.map (rank p) ↔ i ∈ l := by
  rw [List.mem_map]
  constructor
  · rintro ⟨j, hj, heq⟩
    rwa [← rank_inj (hl j hj) hi heq]
  · exact fun h => ⟨i, h, rfl⟩

theorem nodup_map_rank {l : List ℕ} (hl : ∀ j ∈ l, p j = true) (h : l.Nodup) :
    (l.map (rank p)).Nodup :=
  h.map_on fun i hi j hj heq => rank_inj (hl i hi) (hl j hj) heq

variable (p)

/-- The entries at the chosen positions, each with its old position. -/
def chosen (l : List α) : List (α × ℕ) := l.zipIdx.filter fun x => p x.2

theorem chosen_snoc (l : List α) (x : α) :
    chosen p (l ++ [x]) = chosen p l ++ if p l.length then [(x, l.length)] else [] := by
  unfold chosen
  rw [List.zipIdx_append, List.filter_append]
  simp [List.filter_singleton]

theorem chosen_length (l : List α) : (chosen p l).length = rank p l.length := by
  induction l using List.reverseRecOn with
  | nil => rfl
  | append_singleton l x ih =>
    rw [chosen_snoc, List.length_append, ih, List.length_append, List.length_singleton, rank_succ]
    split <;> rfl

/-- Entries behind the end that stand at no chosen position change nothing. -/
theorem chosen_append_out (l m : List α) (h : ∀ i < m.length, p (l.length + i) = false) :
    chosen p (l ++ m) = chosen p l := by
  induction m using List.reverseRecOn with
  | nil => simp
  | append_singleton m x ih =>
    have hx := h m.length (by simp)
    rw [← List.append_assoc, chosen_snoc, List.length_append, hx,
      ih fun i hi => h i (by simp; omega)]
    simp

/-- Entries behind the end that stand at chosen positions all stay. -/
theorem chosen_append_in (f : α → β) (l m : List α)
    (h : ∀ i < m.length, p (l.length + i) = true) :
    (chosen p (l ++ m)).map (fun x => f x.1) = (chosen p l).map (fun x => f x.1) ++ m.map f := by
  induction m using List.reverseRecOn with
  | nil => simp
  | append_singleton m x ih =>
    have hx := h m.length (by simp)
    rw [← List.append_assoc, chosen_snoc, List.length_append, hx, List.map_append,
      ih fun i hi => h i (by simp; omega)]
    simp

theorem chosen_mapIdx (f : ℕ → α → β) (l : List α) :
    chosen p (l.mapIdx f) = (chosen p l).map fun x => (f x.2 x.1, x.2) := by
  induction l using List.reverseRecOn with
  | nil => rfl
  | append_singleton l x ih =>
    rw [List.mapIdx_append, List.mapIdx_singleton, chosen_snoc, chosen_snoc, List.map_append, ih,
      List.length_mapIdx, Nat.zero_add]
    split <;> rfl

variable {p}

/-- An entry at a chosen position stands at its new position. -/
theorem chosen_get (l : List α) {i : ℕ} (hi : p i = true) :
    (chosen p l)[rank p i]? = l[i]?.map fun x => (x, i) := by
  induction l using List.reverseRecOn with
  | nil => rfl
  | append_singleton l x ih =>
    rw [chosen_snoc]
    rcases Nat.lt_trichotomy i l.length with hlt | rfl | hlt
    · have := rank_lt hi hlt
      rw [List.getElem?_append_left (by rw [chosen_length]; exact this), ih,
        List.getElem?_append_left hlt]
    · rw [List.getElem?_append_right (by rw [chosen_length]), chosen_length, hi]
      simp
    · have h1 : rank p (l.length + 1) ≤ rank p i := rank_mono p hlt
      rw [List.getElem?_eq_none (l := l ++ [x]) (by simp; omega), List.getElem?_eq_none]
      · rfl
      · rw [← chosen_snoc, chosen_length]
        simpa using h1

/-- A map by new positions is a map by old positions. -/
theorem mapIdx_chosen (f : α → β) (g g' : ℕ → β → β) (l : List α)
    (h : ∀ i x, l[i]? = some x → p i = true → g (rank p i) (f x) = g' i (f x)) :
    ((chosen p l).map fun x => f x.1).mapIdx g = (chosen p l).map fun x => g' x.2 (f x.1) := by
  induction l using List.reverseRecOn with
  | nil => rfl
  | append_singleton l x ih =>
    have ih := ih fun i y hy hp => h i y (by
      rw [List.getElem?_append_left (List.getElem?_eq_some_iff.mp hy).1]
      exact hy) hp
    rw [chosen_snoc, List.map_append, List.map_append, List.mapIdx_append, ih]
    congr 1
    by_cases hp : p l.length = true
    · simp [hp, chosen_length, h l.length x (by simp) hp]
    · simp [hp]

/-- An entry that a filter keeps stands behind the kept entries before it. -/
theorem filter_get {q : α → Bool} {l : List α} {i : ℕ} {x : α} (hx : l[i]? = some x)
    (hq : q x = true) : (l.filter q)[(l.take i).countP q]? = some x := by
  obtain ⟨hi, rfl⟩ := List.getElem?_eq_some_iff.mp hx
  have hsplit : l.filter q = (l.take i).filter q ++ l[i] :: (l.drop (i + 1)).filter q := by
    rw [← List.filter_cons_of_pos hq, ← List.filter_append, ← List.drop_eq_getElem_cons hi,
      List.take_append_drop]
  rw [hsplit, List.countP_eq_length_filter, List.getElem?_append_right le_rfl]
  simp

end positions
