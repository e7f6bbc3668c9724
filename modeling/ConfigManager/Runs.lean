import Mathlib.Logic.Relation

/-! # Runs of a partial step function

A system is a function `step` from a state and a label to the next state, `none`
where the label cannot happen.  A run is a list of labels that can happen one
after the other; `visited` are the states it goes through.

Two rules carry every result about runs.  `visited_of_inv` is the invariant rule.
`safe_iff_meets` is for a system that is safe only under a condition on its
steps: if a step that meets the condition keeps the invariant, and one that does
not ends in an unsafe state, then the runs that stay safe are exactly those whose
steps all meet the condition.

A system of components is a list of them; `split_at` is what a step of one of them
does to the list.
-/
namespace Runs

/-- A component of a list, and the list with another one in its place. -/
theorem split_at {α : Type*} {l : List α} {i : Nat} {a : α} (h : l[i]? = some a) :
    ∃ l₁ l₂, l = l₁ ++ a :: l₂ ∧ ∀ b, l.set i b = l₁ ++ b :: l₂ := by
  obtain ⟨hi, rfl⟩ := List.getElem?_eq_some_iff.mp h
  obtain ⟨l₁, l₂, hl, hlen, -⟩ : ∃ l₁ l₂, l = l₁ ++ l[i] :: l₂ ∧ l₁.length = i ∧
      l.set i l[i] = l₁ ++ l[i] :: l₂ := List.exists_of_set hi
  refine ⟨l₁, l₂, hl, fun b => ?_⟩
  generalize l[i] = a at hl
  subst hl hlen
  simp

/-- **Deleting labels from a run**: two runs stay related if a label that is kept relates
them again and one that is deleted is not noticed. -/
theorem foldl_filter_rel {S A : Type*} {f : S → A → S} {kept : A → Bool} {R : S → S → Prop}
    (hkept : ∀ s t a, R s t → kept a = true → R (f s a) (f t a))
    (hdeleted : ∀ s t a, R s t → kept a = false → R (f s a) t)
    {s t : S} (h : R s t) (as : List A) : R (as.foldl f s) ((as.filter kept).foldl f t) := by
  induction as generalizing s t with
  | nil => exact h
  | cons a as ih =>
    cases ha : kept a with
    | true =>
      rw [List.filter_cons_of_pos ha]
      exact ih (hkept s t a h ha)
    | false =>
      rw [List.filter_cons_of_neg (by simp [ha])]
      exact ih (hdeleted s t a h ha)

variable {S A : Type*} (step : S → A → Option S)

/-- The state a run ends in, `none` if some label cannot happen. -/
def run (s : S) : List A → Option S
  | [] => some s
  | a :: as => (step s a).bind fun t => run t as

/-- The labels can happen one after the other. -/
def IsRun (s : S) (as : List A) : Prop := (run step s as).isSome

instance (s : S) (as : List A) : Decidable (IsRun step s as) :=
  inferInstanceAs (Decidable (_ = true))

/-- The states of a run, the first one included. -/
def visited (s : S) : List A → List S
  | [] => [s]
  | a :: as => s :: match step s a with
    | some t => visited t as
    | none => []

/-- Every step of a run meets a condition on the state before it and its label. -/
def Meets (C : S → A → Prop) (s : S) : List A → Prop
  | [] => True
  | a :: as => C s a ∧ ∀ t, step s a = some t → Meets C t as

instance decidableMeets (C : S → A → Prop) [∀ s a, Decidable (C s a)] (s : S) :
    (as : List A) → Decidable (Meets step C s as)
  | [] => .isTrue trivial
  | a :: as =>
      have : Decidable (∀ t, step s a = some t → Meets step C t as) :=
        match step s a with
        | none => .isTrue fun _ ht => nomatch ht
        | some u => match decidableMeets C u as with
          | .isTrue hm => .isTrue fun _ ht => Option.some.inj ht ▸ hm
          | .isFalse hm => .isFalse fun hall => hm (hall u rfl)
      inferInstanceAs (Decidable (_ ∧ _))

variable {step} {s t : S} {a : A} {as : List A}

theorem exists_of_isRun_cons (h : IsRun step s (a :: as)) :
    ∃ t, step s a = some t ∧ IsRun step t as := by
  cases ht : step s a with
  | none => simp [IsRun, run, ht] at h
  | some t => exact ⟨t, rfl, by simpa [IsRun, run, ht] using h⟩

theorem visited_cons (h : step s a = some t) :
    visited step s (a :: as) = s :: visited step t as := by
  rw [visited, h]

theorem mem_visited_self : s ∈ visited step s as := by
  cases as <;> exact List.mem_cons_self ..

theorem run_append (s : S) (as bs : List A) :
    run step s (as ++ bs) = (run step s as).bind fun t => run step t bs := by
  induction as generalizing s with
  | nil => rfl
  | cons a as ih =>
    show (step s a).bind _ = ((step s a).bind _).bind _
    rw [Option.bind_assoc]
    exact Option.bind_congr fun t _ => ih t

theorem mem_visited_last (h : run step s as = some t) : t ∈ visited step s as := by
  induction as generalizing s with
  | nil => cases h; exact List.mem_cons_self ..
  | cons a as ih =>
    obtain ⟨u, hu, h⟩ := Option.bind_eq_some_iff.mp h
    rw [visited_cons hu]
    exact List.mem_cons_of_mem _ (ih h)

/-- The state that the first part of a run ends in. -/
theorem mem_visited_append {bs : List A} (h : run step s as = some t) :
    t ∈ visited step s (as ++ bs) := by
  induction as generalizing s with
  | nil =>
    cases h
    exact mem_visited_self
  | cons a as ih =>
    obtain ⟨u, hu, h⟩ := Option.bind_eq_some_iff.mp h
    rw [List.cons_append, visited_cons hu]
    exact List.mem_cons_of_mem _ (ih h)

theorem meets_cons {C : S → A → Prop} (h : step s a = some t) :
    Meets step C s (a :: as) ↔ C s a ∧ Meets step C t as := by
  refine and_congr_right fun _ => ⟨fun hm => hm t h, fun hm u hu => ?_⟩
  cases h.symm.trans hu
  exact hm

/-- A run that does not meet a condition meets it up to a first step that does not. -/
theorem exists_first_not {C : S → A → Prop} (hrun : IsRun step s as) (h : ¬Meets step C s as) :
    ∃ before a after t u, as = before ++ a :: after ∧ run step s before = some t ∧
      Meets step C s before ∧ ¬C t a ∧ step t a = some u := by
  induction as generalizing s with
  | nil => exact absurd trivial h
  | cons a as ih =>
    obtain ⟨t, ht, hrest⟩ := exists_of_isRun_cons hrun
    by_cases hc : C s a
    · obtain ⟨before, b, after, u, v, rfl, hu, hm, hb, hv⟩ :=
        ih hrest fun hm => h ((meets_cons ht).mpr ⟨hc, hm⟩)
      refine ⟨a :: before, b, after, u, v, rfl, ?_, (meets_cons ht).mpr ⟨hc, hm⟩, hb, hv⟩
      rw [run, ht]
      exact hu
    · exact ⟨[], a, as, s, t, rfl, rfl, trivial, hc, ht⟩

/-- **The invariant rule**, for runs whose steps meet a condition. -/
theorem visited_of_inv {C : S → A → Prop} {Inv : S → Prop}
    (hstep : ∀ s a t, Inv s → C s a → step s a = some t → Inv t)
    (hs : Inv s) (hm : Meets step C s as) : ∀ t ∈ visited step s as, Inv t := by
  induction as generalizing s with
  | nil => simpa [visited] using hs
  | cons a as ih =>
    cases ht : step s a with
    | none => simpa [visited, ht] using hs
    | some t =>
      have ⟨hc, hm⟩ := (meets_cons ht).mp hm
      rw [visited_cons ht]
      simpa using ⟨hs, ih (hstep s a t hs hc ht) hm⟩

theorem Meets.imp {C D : S → A → Prop} (h : ∀ s a, C s a → D s a) (hm : Meets step C s as) :
    Meets step D s as := by
  induction as generalizing s with
  | nil => trivial
  | cons a as ih => exact ⟨h s a hm.1, fun t ht => ih (hm.2 t ht)⟩

theorem Meets.and {C D : S → A → Prop} (hc : Meets step C s as) (hd : Meets step D s as) :
    Meets step (fun s a => C s a ∧ D s a) s as := by
  induction as generalizing s with
  | nil => trivial
  | cons a as ih => exact ⟨⟨hc.1, hd.1⟩, fun t ht => ih (hc.2 t ht) (hd.2 t ht)⟩

theorem meets_trivial (s : S) (as : List A) : Meets step (fun _ _ => True) s as := by
  induction as generalizing s with
  | nil => trivial
  | cons a as ih => exact ⟨trivial, fun t _ => ih t⟩

/-- A condition on the labels only is met by a run whose labels meet it. -/
theorem meets_of_forall {C : A → Prop} (s : S) (h : ∀ a ∈ as, C a) :
    Meets step (fun _ a => C a) s as := by
  induction as generalizing s with
  | nil => trivial
  | cons a as ih =>
    obtain ⟨ha, has⟩ := List.forall_mem_cons.mp h
    exact ⟨ha, fun t _ => ih t has⟩

/-- **The measure rule**: a run is no longer than what its steps can count down. -/
theorem length_of_measure {μ : S → Nat} (hstep : ∀ s a t, step s a = some t → μ t < μ s)
    (h : run step s as = some t) : as.length + μ t ≤ μ s := by
  induction as generalizing s with
  | nil =>
    cases h
    exact Nat.le_of_eq (Nat.zero_add _)
  | cons a as ih =>
    obtain ⟨u, hu, h⟩ := Option.bind_eq_some_iff.mp h
    have hrest := ih h
    have hfirst := hstep s a u hu
    rw [List.length_cons]
    omega

/-- The invariant rule, to the end of a run. -/
theorem last_of_inv {Inv : S → Prop} (hstep : ∀ s a t, Inv s → step s a = some t → Inv t)
    (hs : Inv s) (h : run step s as = some t) : Inv t :=
  visited_of_inv (C := fun _ _ => True) (fun s a t hs _ => hstep s a t hs) hs
    (meets_trivial s as) t (mem_visited_last h)

/-- **A condition that decides safety.**  The runs that visit only safe states are
those whose steps all meet the condition. -/
theorem safe_iff_meets {C : S → A → Prop} {Inv Safe : S → Prop}
    (hsafe : ∀ s, Inv s → Safe s)
    (hgood : ∀ s a t, Inv s → C s a → step s a = some t → Inv t)
    (hbad : ∀ s a t, Inv s → ¬C s a → step s a = some t → ¬Safe t)
    (hs : Inv s) (hrun : IsRun step s as) :
    (∀ t ∈ visited step s as, Safe t) ↔ Meets step C s as := by
  refine ⟨fun h => ?_, fun h t ht => hsafe t (visited_of_inv hgood hs h t ht)⟩
  induction as generalizing s with
  | nil => trivial
  | cons a as ih =>
    obtain ⟨t, ht, hrun⟩ := exists_of_isRun_cons hrun
    rw [visited_cons ht] at h
    rw [meets_cons ht]
    have hc : C s a := Classical.byContradiction fun hc =>
      hbad s a t hs hc ht (h t (List.mem_cons_of_mem _ mem_visited_self))
    exact ⟨hc, ih (hgood s a t hs hc ht) hrun fun u hu => h u (List.mem_cons_of_mem _ hu)⟩

end Runs
