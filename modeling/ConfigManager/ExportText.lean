import ConfigManager.ConfigTable
import ConfigManager.LinkText

/-! # Exported links

Links are exported with a blank line between them.  A text is searched word by word, so
the links found in one text, written like this, are found again (`findall_export`).
-/
namespace ConfigManager

open Py Regex

/-- `format_configs_as_text`. -/
def formatConfigsAsText (configs : List Str) : Str := "\n\n".toList.intercalate configs

/-- `_build_export_text`. -/
def buildExportText (configs : List Row) : Str :=
  "\n\n".toList.intercalate (configs.map Row.text)

/-! ## Exporting and importing -/

/-- Links with blank lines between them are found as they are. -/
theorem findall_formatConfigsAsText {configs : List Str}
    (h : ∀ c ∈ configs, FullMatch configPattern c) :
    findall configPattern (formatConfigsAsText configs) = configs := by
  rw [formatConfigsAsText, findall_intercalate local_configPattern text_ne_nil (by decide)
    (by decide)]
  induction configs with
  | nil => rfl
  | cons c configs ih =>
    rw [List.flatMap_cons, (findall_of_fullMatch (h c (List.mem_cons_self ..))).1,
      ih fun d hd => h d (List.mem_cons_of_mem _ hd)]
    rfl

/-- **Exporting and importing is lossless.**  What is found in a text are links without
whitespace and with a protocol; and written with blank lines between them, by either of
the two functions, they are found again, in order and with repeats. -/
theorem findall_export (text : Str) :
    (∀ c ∈ findall configPattern text, NoSpace c ∧ detectProtocol c ≠ .unknown) ∧
      findall configPattern (formatConfigsAsText (findall configPattern text)) =
        findall configPattern text ∧
      ∀ rows : List Row, rows.map Row.text = findall configPattern text →
        findall configPattern (buildExportText rows) = findall configPattern text := by
  have hlinks : ∀ c ∈ findall configPattern text, FullMatch configPattern c := fun _ =>
    fullMatch_of_mem_findall
  refine ⟨fun c hc => ?_, findall_formatConfigsAsText hlinks, fun rows hrows => ?_⟩
  · exact ⟨noSpace_of_fullMatch (hlinks c hc), detectProtocol_ne_unknown (hlinks c hc)⟩
  · rw [buildExportText, hrows]
    exact findall_formatConfigsAsText hlinks

/-- A text with two links in it. -/
def sampleText : Str := "free: ".toList ++ sampleLink ++ " (new), trojan://p@h:443#b".toList

/-- The rows of the two links. -/
def sampleTextRows : List Row := [rowOfLink sampleLink, rowOfLink "trojan://p@h:443#b".toList]

theorem findall_export_sample :
    findall configPattern (formatConfigsAsText (findall configPattern sampleText)) =
        sampleTextRows.map Row.text ∧
      findall configPattern (buildExportText sampleTextRows) = sampleTextRows.map Row.text := by
  have hfound : findall configPattern sampleText = sampleTextRows.map Row.text := by
    decide +kernel
  obtain ⟨-, hconfigs, hrows⟩ := findall_export sampleText
  exact ⟨hconfigs.trans hfound, (hrows sampleTextRows hfound.symm).trans hfound⟩

end ConfigManager
