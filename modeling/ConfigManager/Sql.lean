import ConfigManager.Py.Text

/-! # SQL scripts

A script is a sequence of statements, each ended by a `;`.  A `;` ends a statement unless it
stands in a literal (`'…'`), in a comment (`--` to the end of the line) or in a body
(`$$…$$`), so a statement is read character by character with the mode of what it stands in
(`Mode`).  A text is a script in one way (`Script.statements_unique`).
-/
namespace Sql

open Py

/-- What the next character stands in.  `dash` and `dollar` are one character before a
comment and a body, `bodyDollar` is one before the end of a body. -/
inductive Mode where
  | plain
  | dash
  | dollar
  | literal
  | comment
  | body
  | bodyDollar
  deriving DecidableEq

/-- Neither in a literal nor in a comment nor in a body. -/
def Mode.outside : Mode → Bool
  | .plain | .dash | .dollar => true
  | _ => false

/-- The mode after a character, `none` behind the end of a statement. -/
def next : Mode → Char → Option Mode
  | .literal, c => some (if c.toNat = 39 then .plain else .literal)
  | .comment, c => some (if c = '\n' then .plain else .comment)
  | .body, c => some (if c = '$' then .bodyDollar else .body)
  | .bodyDollar, c => some (if c = '$' then .plain else .body)
  | mode, c =>
      if c = ';' then none
      else if c.toNat = 39 then some .literal
      else if c = '-' then some (if mode = .dash then .comment else .dash)
      else if c = '$' then some (if mode = .dollar then .body else .dollar)
      else some .plain

/-- The mode after a text in which no statement ends. -/
def run (mode : Mode) : Str → Option Mode
  | [] => some mode
  | c :: s => (next mode c).bind fun mode => run mode s

/-- A text that the next `;` ends as a statement. -/
def IsStatement (s : Str) : Prop := (run .plain s).any Mode.outside = true

instance (s : Str) : Decidable (IsStatement s) := inferInstanceAs (Decidable (_ = _))

variable {mode : Mode} {s t u v : Str}

/-! ## Statements -/

theorem run_append (mode : Mode) (s t : Str) :
    run mode (s ++ t) = (run mode s).bind fun mode => run mode t := by
  induction s generalizing mode with
  | nil => rfl
  | cons c s ih =>
    rw [List.cons_append, run, run, Option.bind_assoc]
    exact congrArg _ (funext fun mode => ih mode)

/-- **The `;` behind a statement ends it.** -/
theorem next_of_outside (h : mode.outside = true) : next mode ';' = none := by
  cases mode with
  | plain | dash | dollar => rfl
  | literal | comment | body | bodyDollar => cases h

/-- **A text is cut at the end of its first statement in one way.** -/
theorem append_inj (hs : IsStatement s) (ht : IsStatement t) (h : s ++ ';' :: u = t ++ ';' :: v) :
    s = t ∧ u = v := by
  have key : ∀ {s t u v : Str}, IsStatement s → IsStatement t → ∀ w, t = s ++ w →
      ';' :: u = w ++ ';' :: v → s = t ∧ u = v := by
    intro s t u v hs ht w hw hu
    cases w with
    | nil => exact ⟨by rw [hw, List.append_nil], (List.cons.inj hu).2⟩
    | cons c w =>
      -- The statement `s` would go on behind the `;` that ends it.
      obtain ⟨rfl, -⟩ := List.cons.inj hu
      cases hmode : run .plain s with
      | none => simp [IsStatement, hmode] at hs
      | some mode =>
        rw [IsStatement, hmode] at hs
        rw [IsStatement, hw, run_append, hmode, Option.bind_some, run, next_of_outside hs] at ht
        cases ht
  rcases List.append_eq_append_iff.mp h with ⟨w, hw, hu⟩ | ⟨w, hw, hv⟩
  · exact key hs ht w hw hu
  · obtain ⟨hst, huv⟩ := key ht hs w hw hv
    exact ⟨hst.symm, huv.symm⟩

/-! ## Scripts -/

/-- Statements that are not blank, each followed by a `;`, and whitespace. -/
structure Script where
  statements : List Str
  trailing : Str
  isStatement : ∀ s ∈ statements, IsStatement s
  nonblank : ∀ s ∈ statements, strip s ≠ []
  trailing_blank : ∀ c ∈ trailing, isSpace c = true

namespace Script

/-- The text of statements, each followed by a `;`. -/
def textOf (statements : List Str) (trailing : Str) : Str :=
  statements.foldr (fun s text => s ++ ';' :: text) trailing

/-- The text of a script. -/
def text (script : Script) : Str := textOf script.statements script.trailing

theorem textOf_inj {as bs : List Str} {x y : Str} (has : ∀ s ∈ as, IsStatement s)
    (hbs : ∀ s ∈ bs, IsStatement s) (hx : ';' ∉ x) (hy : ';' ∉ y)
    (h : textOf as x = textOf bs y) : as = bs := by
  induction as generalizing bs with
  | nil =>
    cases bs with
    | nil => rfl
    | cons b bs =>
      have h : x = b ++ ';' :: textOf bs y := h
      exact absurd (h ▸ List.mem_append_right b (List.mem_cons_self ..)) hx
  | cons a as ih =>
    cases bs with
    | nil =>
      have h : a ++ ';' :: textOf as x = y := h
      exact absurd (h ▸ List.mem_append_right a (List.mem_cons_self ..)) hy
    | cons b bs =>
      rw [List.forall_mem_cons] at has hbs
      obtain ⟨rfl, hrest⟩ := append_inj has.1 hbs.1 h
      rw [ih has.2 hbs.2 hrest]

/-- **A text is a script in one way.** -/
theorem statements_unique {script other : Script} (h : script.text = other.text) :
    script.statements = other.statements := by
  have hblank : ∀ script : Script, ';' ∉ script.trailing := fun script hm => by
    cases script.trailing_blank ';' hm
  exact textOf_inj script.isStatement other.isStatement (hblank script) (hblank other) h

end Script

end Sql
