/-
  Shclaw.Plugin.Canonical — the plugin part of the tool list (`src/plugin.c`:
  `plugin_get_schemas`).

  Each schema goes in before the first one with a later name. `schemas_canonical`: with
  distinct names the list is sorted and holds every schema once, so it depends on which
  plugins are loaded and not on how the table came by them: a plugin that is replaced keeps
  its slot, and one that is unloaded gives it to the last (`unload`).
-/

import Shclaw.Plugin.Registry

namespace Shclaw.Plugin

open Lib

/-- The order of the list. -/
def NamedBefore (a b : Json) : Prop := schemaName a < schemaName b

instance : DecidableRel NamedBefore := fun a b => inferInstanceAs (Decidable (schemaName a < schemaName b))

theorem NamedBefore.trans {a b c : Json} (hab : NamedBefore a b) (hbc : NamedBefore b c) : NamedBefore a c := List.lt_trans hab hbc

theorem NamedBefore.of_not {a b : Json} (h : ¬ NamedBefore a b) (hne : schemaName a ≠ schemaName b) : NamedBefore b a :=
  Std.lt_of_le_of_ne h hne.symm

/-- A new name goes where it belongs. -/
theorem insert_sorted {s : Json} {arr : List Json} (h : arr.Pairwise NamedBefore) (hne : ∀ a ∈ arr, schemaName a ≠ schemaName s) :
    (arr.orderedInsert NamedBefore s).Pairwise NamedBefore := by
  induction arr with
  | nil => exact List.pairwise_singleton _ s
  | cons a arr ih =>
    obtain ⟨hfirst, hrest⟩ := List.pairwise_cons.mp h
    rw [List.forall_mem_cons] at hne
    rw [List.orderedInsert_cons]
    split
    · rename_i hsa
      refine List.pairwise_cons.mpr ⟨?_, h⟩
      intro b hb
      rcases List.mem_cons.mp hb with rfl | hb
      · exact hsa
      · exact hsa.trans (hfirst b hb)
    · rename_i hsa
      refine List.pairwise_cons.mpr ⟨?_, ih hrest hne.2⟩
      intro b hb
      rcases (List.perm_orderedInsert NamedBefore s arr).mem_iff.mp hb |> List.mem_cons.mp with rfl | hb
      · exact NamedBefore.of_not hsa hne.1.symm
      · exact hfirst b hb

/-- No two entries have one tool name. -/
def Registry.Distinct (r : Registry) : Prop := r.plugins.Pairwise fun p q => p.toolName ≠ q.toolName

theorem schemas_sorted {r : Registry} (h : r.Distinct) : (pluginGetSchemas r).Pairwise NamedBefore := by
  have hfold : ∀ (ps : List Entry) (arr : List Json), arr.Pairwise NamedBefore → ps.Pairwise (fun p q => p.toolName ≠ q.toolName) →
      (∀ a ∈ arr, ∀ p ∈ ps, schemaName a ≠ p.toolName) →
      (ps.foldl (fun arr p => arr.orderedInsert NamedBefore p.schema) arr).Pairwise NamedBefore := by
    intro ps
    induction ps with
    | nil => exact fun arr harr _ _ => harr
    | cons p ps ih =>
      intro arr harr hdistinct hnew
      obtain ⟨hp, hps⟩ := List.pairwise_cons.mp hdistinct
      apply ih _ (insert_sorted harr fun a ha => hnew a ha p List.mem_cons_self) hps
      intro a ha q hq
      rcases (List.perm_orderedInsert NamedBefore p.schema arr).mem_iff.mp ha |> List.mem_cons.mp with rfl | ha
      · exact hp q hq
      · exact hnew a ha q (List.mem_cons_of_mem _ hq)
  exact hfold r.plugins [] .nil h (by simp)

/-- Two registries with the same plugins give the same list: every schema once, sorted by name. -/
theorem schemas_canonical {r r' : Registry} (hr : r.Distinct) (hr' : r'.Distinct)
    (hsame : ∀ s, s ∈ r.plugins.map (·.schema) ↔ s ∈ r'.plugins.map (·.schema)) :
    pluginGetSchemas r = pluginGetSchemas r' ∧ (pluginGetSchemas r).Perm (r.plugins.map (·.schema)) ∧
      (pluginGetSchemas r).Pairwise NamedBefore := by
  have hirrefl : Std.Irrefl NamedBefore := ⟨fun a => List.lt_irrefl (schemaName a)⟩
  have hantisymm : Std.Antisymm NamedBefore := ⟨fun a b hab hba => absurd hba (List.lt_asymm hab)⟩
  refine ⟨(schemas_sorted hr).eq_of_mem_iff (schemas_sorted hr') fun s => ?_, getSchemas_perm r, schemas_sorted hr⟩
  rw [(getSchemas_perm r).mem_iff, (getSchemas_perm r').mem_iff]
  exact hsame s

def named (name : Str) : Entry := ⟨name, .obj [(lit "name", .str name)], [], 0, name⟩

/-- Two plugins, and what is left of three when the first is unloaded. -/
def teaFirst : Registry := ⟨[], [named (lit "tea"), named (lit "ink")], [], by decide, by decide⟩

def inkFirst : Registry :=
  Registry.forget ⟨[], [named (lit "old"), named (lit "tea"), named (lit "ink")], [], by decide, by decide⟩ fun path => path ≠ lit "old"

theorem schemas_canonical_tea : pluginGetSchemas teaFirst = pluginGetSchemas inkFirst :=
  (@schemas_canonical teaFirst inkFirst (by unfold Registry.Distinct; decide)
    (by unfold Registry.Distinct; decide)
    fun s => by
      have hperm : (teaFirst.plugins.map (·.schema)).Perm (inkFirst.plugins.map (·.schema)) := List.Perm.swap _ _ _
      exact hperm.mem_iff).1

end Shclaw.Plugin
