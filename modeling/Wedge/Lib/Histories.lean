-- Logs of events: what one event opens and no later one closes, and conditions on each
-- event that look at the events before it. Both grow with the log by one lemma.
import Mathlib

namespace histories

variable {α β : Type*} {opens closes : β → α → Prop} {cond : List β → β → Prop}
  {log before after : List β} {e f : β} {x : α}

/-- An event has opened the item, and no later one has closed it. -/
def Stands (opens closes : β → α → Prop) (log : List β) (x : α) : Prop :=
  ∃ before e after, log = before ++ e :: after ∧ opens e x ∧ ∀ f ∈ after, ¬ closes f x

/-- Each event meets the condition with the events before it. -/
def Each (cond : List β → β → Prop) (log : List β) : Prop :=
  ∀ before e after, log = before ++ e :: after → cond before e

theorem split_snoc : log ++ [e] = before ++ f :: after ↔
    (after = [] ∧ before = log ∧ e = f) ∨
      ∃ rest, after = rest ++ [e] ∧ log = before ++ f :: rest := by
  constructor
  · intro h
    rcases List.eq_nil_or_concat after with rfl | ⟨rest, z, rfl⟩
    · obtain ⟨h1, h2⟩ := List.append_inj' h rfl
      cases h2
      exact Or.inl ⟨rfl, h1.symm, rfl⟩
    · have h' : log ++ [e] = (before ++ f :: rest) ++ [z] := by simpa using h
      obtain ⟨h1, h2⟩ := List.append_inj' h' rfl
      cases h2
      exact Or.inr ⟨rest, by simp, h1⟩
  · rintro (⟨rfl, rfl, rfl⟩ | ⟨rest, rfl, rfl⟩)
    · rfl
    · simp

theorem not_stands_nil : ¬ Stands opens closes [] x := by
  rintro ⟨before, e, after, h, _⟩
  simp at h

theorem stands_snoc : Stands opens closes (log ++ [e]) x ↔
    opens e x ∨ Stands opens closes log x ∧ ¬ closes e x := by
  constructor
  · rintro ⟨before, f, after, hlog, hopens, hcloses⟩
    rcases split_snoc.mp hlog with ⟨rfl, rfl, rfl⟩ | ⟨rest, rfl, rfl⟩
    · exact Or.inl hopens
    · refine Or.inr ⟨⟨before, f, rest, rfl, hopens, fun g hg => ?_⟩, ?_⟩
      · exact hcloses g (List.mem_append_left _ hg)
      · exact hcloses e (List.mem_append_right _ (List.mem_singleton.mpr rfl))
  · rintro (hopens | ⟨⟨before, f, after, rfl, hopens, hcloses⟩, hnot⟩)
    · exact ⟨log, e, [], rfl, hopens, fun g hg => absurd hg List.not_mem_nil⟩
    · refine ⟨before, f, after ++ [e], by simp, hopens, fun g hg => ?_⟩
      rcases List.mem_append.mp hg with hg | hg
      · exact hcloses g hg
      · rwa [List.mem_singleton.mp hg]

theorem each_nil : Each cond [] := by
  intro before e after h
  simp at h

theorem each_snoc : Each cond (log ++ [e]) ↔ Each cond log ∧ cond log e := by
  constructor
  · intro h
    refine ⟨fun before f after hlog => ?_, h log e [] rfl⟩
    exact h before f (after ++ [e]) (by simp [hlog])
  · rintro ⟨h, he⟩ before f after hlog
    rcases split_snoc.mp hlog with ⟨rfl, rfl, rfl⟩ | ⟨rest, rfl, rfl⟩
    · exact he
    · exact h before f rest rfl

end histories
