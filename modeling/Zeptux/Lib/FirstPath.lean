import Mathlib.Logic.Relation

/-!
Ordered dependencies, and the path to a goal that always takes the first dependency from which
the goal can be reached. A depth-first search that skips what it has seen comes to the goal
along this path.
-/

namespace FirstPath

open Relation

variable {α : Type} (deps : α → List α)

def DependsOn (node dep : α) : Prop := dep ∈ deps node

/-- The node depends on the other directly or through further ones, or is the other. -/
def Reaches : α → α → Prop := ReflTransGen (DependsOn deps)

variable {deps} {goal node dep other : α}

theorem reaches_iff :
    Reaches deps node goal ↔ goal = node ∨ ∃ dep ∈ deps node, Reaches deps dep goal := by
  constructor
  · intro reaches
    rcases ReflTransGen.cases_head reaches with rfl | ⟨dep, depends, rest⟩
    · exact .inl rfl
    · exact .inr ⟨dep, depends, rest⟩
  · rintro (rfl | ⟨dep, depends, rest⟩)
    · exact .refl
    · exact .head depends rest

variable (deps) in
/-- A node on the path from the first one to the goal. -/
inductive Leads (goal : α) : α → α → Prop
  | here {node : α} (reaches : Reaches deps node goal) : Leads goal node node
  | next {node dep other : α} {before after : List α} (split : deps node = before ++ dep :: after)
      (first : ∀ skipped ∈ before, ¬Reaches deps skipped goal) (rest : Leads goal dep other) :
      Leads goal node other

variable (deps) in
/-- A node on such a path that starts at the first of these nodes to reach the goal. -/
def LeadsFrom (goal : α) (nodes : List α) (other : α) : Prop :=
  ∃ before dep after, nodes = before ++ dep :: after ∧
    (∀ skipped ∈ before, ¬Reaches deps skipped goal) ∧ Leads deps goal dep other

theorem Leads.reaches (leads : Leads deps goal node other) :
    Reaches deps node other ∧ Reaches deps other goal := by
  induction leads with
  | here reaches => exact ⟨.refl, reaches⟩
  | next split first rest ih =>
      exact ⟨.head (by simp [DependsOn, split]) ih.1, ih.2⟩

theorem LeadsFrom.reaches {nodes : List α} (leads : LeadsFrom deps goal nodes other) :
    ∃ dep ∈ nodes, Reaches deps dep other ∧ Reaches deps dep goal := by
  obtain ⟨before, dep, after, rfl, -, rest⟩ := leads
  exact ⟨dep, by simp, rest.reaches.1, rest.reaches.1.trans rest.reaches.2⟩

theorem leads_iff :
    Leads deps goal node other ↔
      other = node ∧ Reaches deps node goal ∨ LeadsFrom deps goal (deps node) other := by
  constructor
  · rintro (reaches | ⟨split, first, rest⟩)
    · exact .inl ⟨rfl, reaches⟩
    · exact .inr ⟨_, _, _, split, first, rest⟩
  · rintro (⟨rfl, reaches⟩ | ⟨before, dep, after, split, first, rest⟩)
    · exact .here reaches
    · exact .next split first rest

@[simp] theorem leadsFrom_nil : ¬LeadsFrom deps goal [] other := by
  simp [LeadsFrom]

theorem leadsFrom_cons {nodes : List α} :
    LeadsFrom deps goal (node :: nodes) other ↔
      Leads deps goal node other ∨ ¬Reaches deps node goal ∧ LeadsFrom deps goal nodes other := by
  constructor
  · rintro ⟨before, dep, after, split, first, rest⟩
    cases before with
    | nil =>
        obtain ⟨rfl, rfl⟩ := List.cons.inj split
        exact .inl rest
    | cons skipped before =>
        obtain ⟨rfl, rfl⟩ := List.cons.inj split
        exact .inr ⟨first _ (by simp), before, dep, after, rfl,
          fun other inside => first other (by simp [inside]), rest⟩
  · rintro (leads | ⟨missed, before, dep, after, rfl, first, rest⟩)
    · exact ⟨[], node, nodes, rfl, by simp, leads⟩
    · refine ⟨node :: before, dep, after, rfl, ?_, rest⟩
      intro skipped inside
      rcases List.mem_cons.mp inside with rfl | later
      · exact missed
      · exact first skipped later

theorem leadsFrom_singleton :
    LeadsFrom deps goal [node] other ↔ Leads deps goal node other := by
  simp [leadsFrom_cons]

end FirstPath
