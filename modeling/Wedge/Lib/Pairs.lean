-- Lists of pairs as one text, with a separator between the pairs and a mark between
-- the two parts of a pair. The parts go in as they are, so the text can be read back
-- only when they hold no separator. Nothing here names a particular format.
import Mathlib

namespace pairs

variable {α : Type*} (sep mark : α)

/-! ## Joining -/

def join_pair (p : List α × List α) : List α := p.1 ++ mark :: p.2

def join (l : List (List α × List α)) : List α := [sep].intercalate (l.map (join_pair mark))

variable {sep mark}

theorem join_pair_ne_nil (p : List α × List α) : join_pair mark p ≠ [] := by
  simp [join_pair]

theorem join_eq_nil_iff {l : List (List α × List α)} : join sep mark l = [] ↔ l = [] := by
  cases l with
  | nil => simp [join]
  | cons p l =>
    cases l with
    | nil => simp [join, join_pair_ne_nil]
    | cons q l => simp [join, join_pair_ne_nil]

/-- A separator goes before every pair but the first. -/
theorem join_concat (l : List (List α × List α)) (p : List α × List α) :
    join sep mark (l ++ [p]) =
      if l = [] then join_pair mark p else join sep mark l ++ sep :: join_pair mark p := by
  induction l with
  | nil => simp [join]
  | cons q l ih =>
    rw [if_neg (List.cons_ne_nil q l)]
    unfold join at ih ⊢
    cases l with
    | nil => simp
    | cons r l =>
      rw [if_neg (List.cons_ne_nil r l)] at ih
      simp only [List.cons_append, List.map_cons, List.intercalate_cons_cons] at ih ⊢
      rw [ih, ← List.append_assoc]

/-! ## Splitting -/

section split

variable [DecidableEq α] (sep mark)

/-- The parts before and after the first mark. -/
def split_pair (text : List α) : List α × List α :=
  (text.takeWhile (· ≠ mark), (text.dropWhile (· ≠ mark)).tail)

/-- The pieces between the separators, each split at its first mark. The empty text has no
piece. -/
def split (text : List α) : List (List α × List α) :=
  if text = [] then [] else (text.splitOn sep).map (split_pair mark)

/-- No part of the pair holds a separator, and the first part holds no mark. -/
structure Plain (p : List α × List α) : Prop where
  first_sep : sep ∉ p.1
  first_mark : mark ∉ p.1
  second_sep : sep ∉ p.2

variable {sep mark}

theorem split_pair_join_pair {p : List α × List α} (h : mark ∉ p.1) :
    split_pair mark (join_pair mark p) = p := by
  have hall : ∀ x ∈ p.1, decide (x ≠ mark) = true := fun x hx =>
    decide_eq_true fun heq => h (heq ▸ hx)
  unfold split_pair join_pair
  rw [List.takeWhile_append_of_pos hall, List.dropWhile_append_of_pos hall]
  simp

/-- The text of plain pairs is read back. -/
theorem split_join {l : List (List α × List α)} (hne : sep ≠ mark)
    (h : ∀ p ∈ l, Plain sep mark p) : split sep mark (join sep mark l) = l := by
  by_cases hnil : l = []
  · subst hnil
    rfl
  · have hpieces : ∀ text ∈ l.map (join_pair mark), sep ∉ text := by
      intro text htext
      obtain ⟨p, hp, rfl⟩ := List.mem_map.mp htext
      simp [join_pair, (h p hp).first_sep, (h p hp).second_sep, hne]
    unfold split
    rw [if_neg (mt join_eq_nil_iff.mp hnil), join,
      List.splitOn_intercalate sep hpieces (by simpa using hnil), List.map_map]
    exact (List.map_congr_left fun p hp => split_pair_join_pair (h p hp).first_mark).trans
      (List.map_id l)

theorem not_mem_piece {text piece : List α} (h : piece ∈ text.splitOn sep) : sep ∉ piece := by
  induction text generalizing piece with
  | nil =>
    rw [List.splitOn_nil, List.mem_singleton] at h
    simp [h]
  | cons x text ih =>
    rw [List.splitOn_cons_eq_if_modifyHead] at h
    split_ifs at h with hx
    · rcases List.mem_cons.mp h with rfl | h
      · exact List.not_mem_nil
      · exact ih h
    · have hx' : sep ≠ x := fun heq => hx (by simp [heq])
      cases hpieces : text.splitOn sep with
      | nil => exact absurd hpieces (List.splitOn_ne_nil sep text)
      | cons first pieces =>
        rw [hpieces] at h ih
        rcases List.mem_cons.mp h with rfl | h
        · simp [hx', ih List.mem_cons_self]
        · exact ih (List.mem_cons_of_mem _ h)

/-- What is read from a text is plain. -/
theorem split_plain (text : List α) : ∀ p ∈ split sep mark text, Plain sep mark p := by
  intro p hp
  unfold split at hp
  split_ifs at hp
  · exact absurd hp List.not_mem_nil
  · obtain ⟨piece, hpiece, rfl⟩ := List.mem_map.mp hp
    have hsep := not_mem_piece hpiece
    refine ⟨?_, ?_, ?_⟩
    · exact fun h => hsep ((List.takeWhile_sublist _).subset h)
    · intro h
      have hmark := List.mem_takeWhile_imp h
      simp at hmark
    · exact fun h => hsep ((List.dropWhile_sublist _).subset (List.mem_of_mem_tail h))

/-- The text is read back exactly when the pairs are plain. -/
theorem split_join_iff (hne : sep ≠ mark) (l : List (List α × List α)) :
    split sep mark (join sep mark l) = l ↔ ∀ p ∈ l, Plain sep mark p := by
  constructor
  · intro h p hp
    rw [← h] at hp
    exact split_plain _ p hp
  · exact split_join hne

end split

end pairs
