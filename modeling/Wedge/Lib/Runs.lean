-- Runs of a machine with labelled steps, and the rules for what holds
-- along every run. Nothing here names a particular machine.
import Mathlib

namespace runs

variable {σ α : Type*} {step : σ → α → σ → Prop}

/-- A run takes the machine from one state to another. The labels of its
steps stand in a list, first step first. -/
inductive Run (step : σ → α → σ → Prop) : σ → List α → σ → Prop
  | nil (s : σ) : Run step s [] s
  | cons {s t u : σ} {a : α} {as : List α} : step s a t → Run step t as u → Run step s (a :: as) u

/-- The steps of a machine that also meet a condition on the state before the
step and on the label. -/
def Where (step : σ → α → σ → Prop) (p : σ → α → Prop) (s : σ) (a : α) (t : σ) : Prop :=
  step s a t ∧ p s a

theorem Run.single {s t : σ} {a : α} (h : step s a t) : Run step s [a] t := .cons h (.nil t)

theorem Run.append {s t u : σ} {as bs : List α} (h1 : Run step s as t) (h2 : Run step t bs u) :
    Run step s (as ++ bs) u := by
  induction h1 with
  | nil => exact h2
  | cons hs _ ih => exact .cons hs (ih h2)

theorem Run.snoc {s t u : σ} {as : List α} {a : α} (h1 : Run step s as t) (h2 : step t a u) :
    Run step s (as ++ [a]) u := h1.append (.single h2)

/-- What every step keeps, every run keeps. -/
theorem Run.invariant {p : σ → Prop} (hstep : ∀ s a t, step s a t → p s → p t)
    {s t : σ} {as : List α} (h : Run step s as t) (hs : p s) : p t := by
  induction h with
  | nil => exact hs
  | cons h1 _ ih => exact ih (hstep _ _ _ h1 hs)

/-- A relation between the first and the last state that is reflexive and that a
last step extends, while an invariant holds, spans every run. -/
theorem Run.spans {p : σ → Prop} {r : σ → σ → Prop} (hp : ∀ s a t, step s a t → p s → p t)
    (hrefl : ∀ s, r s s) (htrans : ∀ s t u, r s t → r t u → r s u)
    (hstep : ∀ s a t, p s → step s a t → r s t)
    {s t : σ} {as : List α} (h : Run step s as t) (hs : p s) : r s t := by
  induction h with
  | nil => exact hrefl _
  | cons h1 _ ih => exact htrans _ _ _ (hstep _ _ _ hs h1) (ih (hp _ _ _ h1 hs))

/-- Runs of a machine whose steps leave no choice leave no choice. -/
theorem Run.unique (hstep : ∀ s a t t', step s a t → step s a t' → t = t') {s t t' : σ}
    {as : List α} (h : Run step s as t) (h' : Run step s as t') : t = t' := by
  induction h with
  | nil =>
    cases h'
    rfl
  | cons h1 _ ih =>
    cases h' with
    | cons h2 hr =>
      cases hstep _ _ _ _ h1 h2
      exact ih hr

/-- A run of a machine is a run of a machine with more steps. -/
theorem Run.mono {step' : σ → α → σ → Prop} (himp : ∀ s a t, step s a t → step' s a t)
    {s t : σ} {as : List α} (h : Run step s as t) : Run step' s as t := by
  induction h with
  | nil => exact .nil _
  | cons h1 _ ih => exact .cons (himp _ _ _ h1) ih

/-- A run under a condition is a run. -/
theorem Run.forget {p : σ → α → Prop} {s t : σ} {as : List α} (h : Run (Where step p) s as t) :
    Run step s as t := h.mono fun _ _ _ hs => hs.1

/-- When a step under the condition keeps what is good, and any other step breaks it for ever, the
end of a run is good exactly when all its steps were under the condition. -/
theorem Run.good_iff {c : σ → α → Prop} {p q g : σ → Prop} {s t : σ} {as : List α}
    (h : Run step s as t) (hs : p s) (hkeep : ∀ s a t, step s a t → p s → c s a → p t)
    (hbreak : ∀ s a t, step s a t → p s → ¬ c s a → q t) (hstay : ∀ s a t, step s a t → q s → q t)
    (hgood : ∀ s, p s → g s) (hbad : ∀ s, q s → ¬ g s) : g t ↔ Run (Where step c) s as t := by
  constructor
  · intro ht
    induction h with
    | nil => exact .nil _
    | @cons s t u a as h1 hrest ih =>
      by_cases hc : c s a
      · exact .cons ⟨h1, hc⟩ (ih (hkeep _ _ _ h1 hs hc) ht)
      · exact absurd ht (hbad _ (hrest.invariant hstay (hbreak _ _ _ h1 hs hc)))
  · intro hrun
    apply hgood
    exact hrun.invariant (p := p) (fun _ _ _ hstep hp => hkeep _ _ _ hstep.1 hp hstep.2) hs

/-- When a step under the condition keeps what is good and any other step ends in a bad state, all
the states that a run comes to are good exactly when all its steps were under the condition. -/
theorem Run.all_good_iff {c : σ → α → Prop} {p g : σ → Prop}
    (hunique : ∀ s a t t', step s a t → step s a t' → t = t') {s u : σ} {as : List α}
    (h : Run step s as u) (hs : p s) (hkeep : ∀ s a t, step s a t → p s → c s a → p t)
    (hbreak : ∀ s a t, step s a t → p s → ¬ c s a → ¬ g t) (hgood : ∀ s, p s → g s) :
    (∀ bs t, bs <+: as → Run step s bs t → g t) ↔ Run (Where step c) s as u := by
  constructor
  · intro hall
    induction h with
    | nil => exact .nil _
    | @cons s t u a as h1 hrest ih =>
      by_cases hc : c s a
      · refine .cons ⟨h1, hc⟩ (ih (hkeep _ _ _ h1 hs hc) fun bs v hbs hrun => ?_)
        exact hall (a :: bs) v (List.cons_prefix_cons.mpr ⟨rfl, hbs⟩) (.cons h1 hrun)
      · refine absurd (hall [a] t ?_ (.single h1)) (hbreak _ _ _ h1 hs hc)
        exact List.cons_prefix_cons.mpr ⟨rfl, List.nil_prefix⟩
  · intro hrun bs t hbs ht
    induction hrun generalizing bs with
    | nil =>
      rw [List.prefix_nil.mp hbs] at ht
      cases ht
      exact hgood _ hs
    | @cons s v u a as h1 hrest ih =>
      cases ht with
      | nil => exact hgood _ hs
      | cons h2 hr =>
        obtain ⟨rfl, hbs'⟩ := List.cons_prefix_cons.mp hbs
        cases hunique _ _ _ _ h1.1 h2
        exact ih hrest.forget (hkeep _ _ _ h1.1 hs h1.2) _ hbs' hr

/-- Replays labels with a function that computes the steps, while a condition holds. -/
def replay (next : σ → α → Option σ) (p : σ → α → Prop) [∀ s a, Decidable (p s a)] :
    List α → σ → Option σ
  | [], s => some s
  | a :: as, s => if p s a then (next s a).bind (replay next p as) else none

theorem run_of_replay {next : σ → α → Option σ} {p : σ → α → Prop}
    [∀ s a, Decidable (p s a)] (hnext : ∀ s a t, next s a = some t → step s a t)
    {s t : σ} {as : List α} (h : replay next p as s = some t) : Run (Where step p) s as t := by
  induction as generalizing s with
  | nil =>
    cases h
    exact .nil _
  | cons a as ih =>
    unfold replay at h
    split at h
    · rename_i hp
      obtain ⟨u, hu, h1⟩ := Option.bind_eq_some_iff.mp h
      exact .cons ⟨hnext s a u hu, hp⟩ (ih h1)
    · cases h

/-- Checks a property at every state that a machine without choices comes to, if it comes to
few. -/
def everywhere (next : σ → Option σ) (p : σ → Bool) : ℕ → σ → Bool
  | 0, _ => false
  | n + 1, s => p s && (next s).all (everywhere next p n)

theorem of_everywhere {next : σ → Option σ} {p : σ → Bool}
    (hnext : ∀ s a t, step s a t → next s = some t) {n : ℕ} {s t : σ} {as : List α}
    (hp : everywhere next p n s = true) (h : Run step s as t) : p t = true := by
  induction h generalizing n with
  | nil =>
    cases n with
    | zero => cases hp
    | succ n => exact (Bool.and_eq_true_iff.mp hp).1
  | cons h1 _ ih =>
    cases n with
    | zero => cases hp
    | succ n =>
      have h2 := (Bool.and_eq_true_iff.mp hp).2
      rw [hnext _ _ _ h1] at h2
      exact ih h2

/-! ## Logs -/

section logs

variable {β : Type*} {emit : σ → α → List β}

/-- A run with what its steps emit, in order. -/
inductive Emits (step : σ → α → σ → Prop) (emit : σ → α → List β) : σ → List β → σ → Prop
  | nil (s : σ) : Emits step emit s [] s
  | cons {s t u : σ} {a : α} {out : List β} :
      step s a t → Emits step emit t out u → Emits step emit s (emit s a ++ out) u

theorem Emits.run {s t : σ} {out : List β} (h : Emits step emit s out t) :
    ∃ as, Run step s as t := by
  induction h with
  | nil s => exact ⟨[], .nil s⟩
  | cons h1 _ ih =>
    obtain ⟨as, h2⟩ := ih
    exact ⟨_, .cons h1 h2⟩

theorem Run.emits (emit : σ → α → List β) {s t : σ} {as : List α} (h : Run step s as t) :
    ∃ out, Emits step emit s out t := by
  induction h with
  | nil s => exact ⟨[], .nil s⟩
  | cons h1 _ ih =>
    obtain ⟨out, h2⟩ := ih
    exact ⟨_, .cons h1 h2⟩

theorem Emits.single {s t : σ} {a : α} (h : step s a t) : Emits step emit s (emit s a) t := by
  rw [← List.append_nil (emit s a)]
  exact .cons h (.nil t)

/-- A run of a machine is a run of a machine with more steps. -/
theorem Emits.mono {step' : σ → α → σ → Prop} (himp : ∀ s a t, step s a t → step' s a t)
    {s t : σ} {out : List β} (h : Emits step emit s out t) : Emits step' emit s out t := by
  induction h with
  | nil => exact .nil _
  | cons h1 _ ih => exact .cons (himp _ _ _ h1) ih

theorem Emits.append {s t u : σ} {out out' : List β} (h1 : Emits step emit s out t)
    (h2 : Emits step emit t out' u) : Emits step emit s (out ++ out') u := by
  induction h1 with
  | nil => exact h2
  | cons hs _ ih =>
    rw [List.append_assoc]
    exact .cons hs (ih h2)

/-- What every step keeps of the state and the log so far, every run keeps. -/
theorem Emits.invariant {p : List β → σ → Prop}
    (hstep : ∀ l s a t, step s a t → p l s → p (l ++ emit s a) t) {l out : List β} {s t : σ}
    (h : Emits step emit s out t) (hs : p l s) : p (l ++ out) t := by
  induction h generalizing l with
  | nil => simpa using hs
  | cons h1 _ ih =>
    rw [← List.append_assoc]
    exact ih (hstep _ _ _ _ h1 hs)

/-- A machine that goes on and decreases a measure until it is done gets done. -/
theorem Emits.reaches {p : List β → σ → Prop} {done : σ → Prop} (measure : σ → ℕ)
    (hstep : ∀ l s, p l s → done s ∨
      ∃ a t, step s a t ∧ p (l ++ emit s a) t ∧ measure t < measure s)
    {l : List β} {s : σ} (hs : p l s) :
    ∃ out t, Emits step emit s out t ∧ p (l ++ out) t ∧ done t := by
  induction hn : measure s using Nat.strong_induction_on generalizing l s with
  | _ n ih =>
    rcases hstep l s hs with hdone | ⟨a, t, h1, ht, hlt⟩
    · exact ⟨[], s, .nil s, by simpa using hs, hdone⟩
    · obtain ⟨out, u, h2, hu, hdone⟩ := ih _ (hn ▸ hlt) ht rfl
      refine ⟨_, u, .cons h1 h2, ?_, hdone⟩
      rwa [← List.append_assoc]

/-- Replays labels as `replay` does, with what the steps emit. -/
def replay_log (next : σ → α → Option σ) (emit : σ → α → List β) (p : σ → α → Prop)
    [∀ s a, Decidable (p s a)] : List α → σ → Option (List β × σ)
  | [], s => some ([], s)
  | a :: as, s =>
    if p s a then
      (next s a).bind fun t => (replay_log next emit p as t).map fun x => (emit s a ++ x.1, x.2)
    else none

theorem emits_of_replay {next : σ → α → Option σ} {p : σ → α → Prop}
    [∀ s a, Decidable (p s a)] (hnext : ∀ s a t, next s a = some t → step s a t)
    {s t : σ} {as : List α} {out : List β}
    (h : replay_log next emit p as s = some (out, t)) : Emits (Where step p) emit s out t := by
  induction as generalizing s out with
  | nil =>
    cases h
    exact .nil _
  | cons a as ih =>
    unfold replay_log at h
    split at h
    · rename_i hp
      obtain ⟨u, hu, h1⟩ := Option.bind_eq_some_iff.mp h
      obtain ⟨⟨out', t'⟩, h2, h3⟩ := Option.map_eq_some_iff.mp h1
      cases h3
      exact .cons ⟨hnext s a u hu, hp⟩ (ih h2)
    · cases h

end logs

end runs
