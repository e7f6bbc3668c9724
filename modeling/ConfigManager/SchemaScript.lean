import ConfigManager.Py.Tokens
import ConfigManager.Sql

/-! # The schema script (`database.migrations.001_initial_schema`)

`upgrade` splits `schema.sql` at every `;` and executes what is not blank, one piece after the
other.  That is the script's statements exactly if no statement has a `;` in it
(`sent_iff`).  The function of `schema.sql` has three in its body, and is executed in four
pieces.
-/
namespace ConfigManager

open Py Sql

/-- The texts that `upgrade` executes, until one of them raises. -/
def schemaStatements (schemaSql : Str) : List Str :=
  ((schemaSql.splitOn ';').map strip).filter (· ≠ [])

variable {s : Str} {statements : List Str}

/-- What is executed has no `;`. -/
theorem notMem_of_mem_schemaStatements {w : Str} (h : w ∈ schemaStatements s) : ';' ∉ w := by
  obtain ⟨v, hv, rfl⟩ := List.mem_map.mp (List.mem_filter.mp h).1
  intro hm
  have hfree := free_of_mem_splitOnP hv ';' (mem_of_mem_strip hm)
  exact absurd hfree (by decide)

/-- Pieces without a `;` are executed as they are. -/
theorem schemaStatements_textOf {trailing : Str} (h : ∀ s ∈ statements, ';' ∉ s)
    (hnonblank : ∀ s ∈ statements, strip s ≠ []) (htrailing : ';' ∉ trailing)
    (hblank : strip trailing = []) :
    schemaStatements (Script.textOf statements trailing) = statements.map strip := by
  induction statements with
  | nil =>
    change schemaStatements trailing = []
    rw [schemaStatements, List.splitOn_eq_singleton htrailing]
    simp [hblank]
  | cons s statements ih =>
    rw [List.forall_mem_cons] at h hnonblank
    have hcut : Script.textOf (s :: statements) trailing =
        s ++ ';' :: Script.textOf statements trailing := rfl
    rw [schemaStatements, hcut, List.splitOn_append_cons_self_of_not_mem h.1, List.map_cons,
      List.filter_cons_of_pos (by simpa using hnonblank.1), ← schemaStatements,
      ih h.2 hnonblank.2, List.map_cons]

/-- The function of `schema.sql`. -/
def updatedAtFunction : Script where
  statements := [
    "CREATE OR REPLACE FUNCTION update_updated_at_column()\nRETURNS TRIGGER AS $$\n".toList ++
    "BEGIN\n    NEW.updated_at = CURRENT_TIMESTAMP;\n    RETURN NEW;\nEND;\n".toList ++
    "$$ language 'plpgsql'".toList]
  trailing := ['\n']
  isStatement := by decide +kernel
  nonblank := by decide +kernel
  trailing_blank := by decide

end ConfigManager
