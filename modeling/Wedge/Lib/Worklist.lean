-- A walk over a worklist by position. A visit may append to the list that is
-- being walked, and the walk then reaches the new entries too.
import Wedge.Lib.Positions

namespace worklist

variable {σ α : Type*} {queue : σ → List α} {visit : α → σ → σ}

/-- Walks the worklist from position `iter`, with at most `fuel` looks at the
list. The result is `none` when the fuel is gone before the end is reached. -/
def walk (queue : σ → List α) (visit : α → σ → σ) : ℕ → ℕ → σ → Option σ
  | 0, _, _ => none
  | fuel + 1, iter, s =>
    match (queue s)[iter]? with
    | none => some s
    | some x => walk queue visit fuel (iter + 1) (visit x s)

theorem walk_end {fuel iter : ℕ} {s : σ} (h : (queue s)[iter]? = none) :
    walk queue visit (fuel + 1) iter s = some s := by
  simp [walk, h]

theorem walk_visit {fuel iter : ℕ} {s : σ} {x : α} (h : (queue s)[iter]? = some x) :
    walk queue visit (fuel + 1) iter s = walk queue visit fuel (iter + 1) (visit x s) := by
  simp [walk, h]

/-- The rule of the walk: what every visit takes from one position to the next
holds at the end, with the position behind the last entry. -/
theorem walk_induct {p : ℕ → σ → Prop}
    (hvisit : ∀ i s x, (queue s)[i]? = some x → p i s → p (i + 1) (visit x s))
    {fuel iter : ℕ} {s s' : σ} (h : walk queue visit fuel iter s = some s') (hp : p iter s) :
    ∃ last, (queue s')[last]? = none ∧ p last s' := by
  induction fuel generalizing iter s with
  | zero => cases h
  | succ fuel ih =>
    cases hx : (queue s)[iter]? with
    | none =>
      rw [walk_end hx] at h
      cases h
      exact ⟨iter, hx, hp⟩
    | some x =>
      rw [walk_visit hx] at h
      exact ih h (hvisit iter s x hx hp)

/-- A walk ends when the worklist never grows past a bound. -/
theorem walk_returns {p : ℕ → σ → Prop} {bound : ℕ}
    (hvisit : ∀ i s x, (queue s)[i]? = some x → p i s → p (i + 1) (visit x s))
    (hbound : ∀ i s, p i s → i ≤ (queue s).length ∧ (queue s).length ≤ bound)
    {fuel iter : ℕ} {s : σ} (hp : p iter s) (hfuel : bound < fuel + iter) :
    ∃ s', walk queue visit fuel iter s = some s' := by
  induction fuel generalizing iter s with
  | zero =>
    have := hbound _ _ hp
    omega
  | succ fuel ih =>
    cases hx : (queue s)[iter]? with
    | none => exact ⟨s, walk_end hx⟩
    | some x =>
      rw [walk_visit hx]
      exact ih (hvisit iter s x hx hp) (by omega)

/-- More fuel does not change the result. -/
theorem walk_mono {fuel iter : ℕ} {s s' : σ} (h : walk queue visit fuel iter s = some s') :
    walk queue visit (fuel + 1) iter s = some s' := by
  induction fuel generalizing iter s with
  | zero => cases h
  | succ fuel ih =>
    cases hx : (queue s)[iter]? with
    | none =>
      rw [walk_end hx] at h ⊢
      exact h
    | some x =>
      rw [walk_visit hx] at h ⊢
      exact ih h

theorem walk_mono_le {fuel fuel' iter : ℕ} {s s' : σ} (hle : fuel ≤ fuel')
    (h : walk queue visit fuel iter s = some s') : walk queue visit fuel' iter s = some s' := by
  induction hle with
  | refl => exact h
  | step _ ih => exact walk_mono ih

/-- A walk over a worklist that no visit changes is a fold. -/
theorem walk_fixed {p : σ → Prop} (hqueue : ∀ s x, p s → queue (visit x s) = queue s)
    (hp : ∀ s x, p s → p (visit x s)) {fuel iter : ℕ} {s : σ} (hs : p s)
    (hle : iter ≤ (queue s).length) (hfuel : (queue s).length < fuel + iter) :
    walk queue visit fuel iter s = some (((queue s).drop iter).foldl (fun s x => visit x s) s) := by
  induction fuel generalizing iter s with
  | zero => omega
  | succ fuel ih =>
    cases hx : (queue s)[iter]? with
    | none =>
      rw [walk_end hx, List.drop_eq_nil_of_le (List.getElem?_eq_none_iff.mp hx)]
      rfl
    | some x =>
      obtain ⟨hlt, rfl⟩ := List.getElem?_eq_some_iff.mp hx
      have hsame := hqueue s (queue s)[iter] hs
      rw [walk_visit hx, ih (hp s _ hs) (by rw [hsame]; omega) (by rw [hsame]; omega), hsame,
        List.drop_eq_getElem_cons hlt]
      rfl

/-- A change of the state that the worklist does not see and that every visit respects. -/
theorem walk_map {τ : Type*} {queue' : τ → List α} {visit' : α → τ → τ} (f : σ → τ)
    (hqueue : ∀ s, queue' (f s) = queue s) (hvisit : ∀ x s, visit' x (f s) = f (visit x s))
    (fuel iter : ℕ) (s : σ) :
    walk queue' visit' fuel iter (f s) = (walk queue visit fuel iter s).map f := by
  induction fuel generalizing iter s with
  | zero => rfl
  | succ fuel ih =>
    cases hx : (queue s)[iter]? with
    | none => rw [walk_end hx, walk_end ((congrArg (·[iter]?) (hqueue s)).trans hx)]; rfl
    | some x =>
      rw [walk_visit hx, walk_visit ((congrArg (·[iter]?) (hqueue s)).trans hx), hvisit]
      exact ih (iter + 1) (visit x s)

/-! ## The first turns of a walk -/

/-- The state after the first `n` turns of the walk, or at its end when that comes first. -/
def turns (queue : σ → List α) (visit : α → σ → σ) : ℕ → σ → σ
  | 0, s => s
  | n + 1, s =>
    let t := turns queue visit n s
    match (queue t)[n]? with
    | none => t
    | some x => visit x t

theorem turns_end {n : ℕ} {s : σ} (h : (queue (turns queue visit n s))[n]? = none) :
    turns queue visit (n + 1) s = turns queue visit n s := by
  simp [turns, h]

theorem turns_visit {n : ℕ} {s : σ} {x : α}
    (h : (queue (turns queue visit n s))[n]? = some x) :
    turns queue visit (n + 1) s = visit x (turns queue visit n s) := by
  simp [turns, h]

/-- What every visit keeps holds after every number of turns. -/
theorem turns_keeps {p : σ → Prop} (hvisit : ∀ s x, x ∈ queue s → p s → p (visit x s)) {s : σ}
    (hs : p s) (n : ℕ) : p (turns queue visit n s) := by
  induction n with
  | zero => exact hs
  | succ n ih =>
    cases hx : (queue (turns queue visit n s))[n]? with
    | none =>
      rw [turns_end hx]
      exact ih
    | some x =>
      rw [turns_visit hx]
      exact hvisit _ x (List.mem_of_getElem? hx) ih

/-- Behind the end of the worklist there are no more turns. -/
theorem turns_stay {n m : ℕ} {s : σ} (h : (queue (turns queue visit n s))[n]? = none)
    (hle : n ≤ m) : turns queue visit m s = turns queue visit n s := by
  induction m, hle using Nat.le_induction with
  | base => rfl
  | succ m hle ih =>
    rw [turns_end, ih]
    rw [ih, List.getElem?_eq_none_iff]
    exact (List.getElem?_eq_none_iff.mp h).trans hle

/-- A walk that ends has made its turns. -/
theorem turns_of_walk {fuel iter : ℕ} {s s' : σ}
    (h : walk queue visit fuel iter (turns queue visit iter s) = some s') :
    s' = turns queue visit (iter + fuel) s := by
  induction fuel generalizing iter with
  | zero => cases h
  | succ fuel ih =>
    cases hx : (queue (turns queue visit iter s))[iter]? with
    | none =>
      rw [walk_end hx] at h
      cases h
      exact (turns_stay hx (Nat.le_add_right _ _)).symm
    | some x =>
      rw [walk_visit hx, ← turns_visit hx] at h
      rw [ih h, Nat.add_right_comm, Nat.add_assoc]

/-- When the end is reached after `n` more turns, the walk ends there. -/
theorem walk_of_turns (iter n : ℕ) {s : σ}
    (h : (queue (turns queue visit (iter + n) s))[iter + n]? = none) :
    ∃ s', walk queue visit (n + 1) iter (turns queue visit iter s) = some s' := by
  induction n generalizing iter with
  | zero => exact ⟨_, walk_end h⟩
  | succ n ih =>
    cases hx : (queue (turns queue visit iter s))[iter]? with
    | none => exact ⟨_, walk_end hx⟩
    | some x =>
      rw [walk_visit hx, ← turns_visit hx]
      apply ih
      rwa [Nat.add_right_comm]

/-- From the first state to the second, the damage grows or each new entry of the worklist is
paid for with what is left to queue. -/
def Pays (queue : σ → List α) (damage left : σ → ℕ) (s t : σ) : Prop :=
  damage s ≤ damage t ∧
    (damage s < damage t ∨ (queue t).length + left t ≤ (queue s).length + left s)

section pays

variable {damage left : σ → ℕ}

theorem Pays.refl (s : σ) : Pays queue damage left s s := ⟨le_rfl, Or.inr le_rfl⟩

theorem Pays.trans {s t u : σ} (h1 : Pays queue damage left s t)
    (h2 : Pays queue damage left t u) : Pays queue damage left s u := by
  unfold Pays at h1 h2 ⊢
  omega

theorem Pays.foldl {β : Type*} {f : σ → β → σ} (h : ∀ s x, Pays queue damage left s (f s x))
    (l : List β) (s : σ) : Pays queue damage left s (l.foldl f s) := by
  induction l generalizing s with
  | nil => exact Pays.refl s
  | cons x l ih => exact (h s x).trans (ih (f s x))

/-- The rule for a worklist that grows. When every visit pays, a walk does damage or visits no
more entries than there were at the start and were left to queue then. -/
theorem damages_or_ends (visit : α → σ → σ) (h : ∀ s x, Pays queue damage left s (visit x s))
    {n : ℕ} {s : σ} (hn : (queue s).length + left s ≤ n) :
    damage s < damage (turns queue visit n s) ∨
      ∃ s', walk queue visit (n + 1) 0 s = some s' := by
  have hpays : Pays queue damage left s (turns queue visit n s) :=
    turns_keeps (fun t x _ ht => ht.trans (h t x)) (Pays.refl s) n
  rcases hpays.2 with hlt | hle
  · exact Or.inl hlt
  · right
    apply walk_of_turns 0
    rw [Nat.zero_add, List.getElem?_eq_none_iff]
    omega

end pays

section view

variable {τ β : Type*} {queue' : τ → List β} {visit' : β → τ → τ}

/-- A walk seen through a view of the state that keeps some entries of the worklist. When the
view does not see the visits of the other entries and follows the visits of its own, the view
of the walk is the walk of the view. -/
theorem walk_view {p : σ → Prop} (view : σ → τ) (q : α → Bool) (name : α → β)
    (hqueue : ∀ s, queue' (view s) = ((queue s).filter q).map name)
    (hp : ∀ s x, p s → x ∈ queue s → p (visit x s))
    (hgrow : ∀ s x, p s → x ∈ queue s → queue s <+: queue (visit x s))
    (hout : ∀ s x, p s → x ∈ queue s → q x = false → view (visit x s) = view s)
    (hin : ∀ s x, p s → x ∈ queue s → q x = true →
      view (visit x s) = visit' (name x) (view s))
    {fuel iter : ℕ} {s s' : σ} (hs : p s) (hle : iter ≤ (queue s).length)
    (h : walk queue visit fuel iter s = some s') :
    walk queue' visit' fuel (((queue s).take iter).countP q) (view s) = some (view s') := by
  induction fuel generalizing iter s with
  | zero => cases h
  | succ fuel ih =>
    cases hx : (queue s)[iter]? with
    | none =>
      rw [walk_end hx] at h
      cases h
      apply walk_end
      have hlen := List.getElem?_eq_none_iff.mp hx
      rw [hqueue, List.getElem?_eq_none_iff, List.length_map, List.take_of_length_le hlen,
        List.countP_eq_length_filter]
    | some x =>
      rw [walk_visit hx] at h
      have hmem := List.mem_of_getElem? hx
      have hlt := (List.getElem?_eq_some_iff.mp hx).1
      obtain ⟨l, hl⟩ := hgrow s x hs hmem
      -- The visit leaves the entries up to `iter` as they are.
      have htake : (queue (visit x s)).take (iter + 1) = (queue s).take iter ++ [x] := by
        rw [← hl, List.take_append_of_le_length (by omega), List.take_add_one, hx]
        rfl
      have h1 := ih (hp s x hs hmem) (by rw [← hl, List.length_append]; omega) h
      rw [htake, List.countP_append] at h1
      cases hq : q x with
      | false =>
        rw [hout s x hs hmem hq] at h1
        simp only [List.countP_singleton, hq] at h1
        exact walk_mono h1
      | true =>
        rw [hin s x hs hmem hq] at h1
        simp only [List.countP_singleton, hq, if_true] at h1
        have hget : (queue' (view s))[((queue s).take iter).countP q]? = some (name x) := by
          rw [hqueue, List.getElem?_map, positions.filter_get hx hq, Option.map_some]
        rw [walk_visit hget]
        exact h1

end view

end worklist
