import ConfigManager.Provenance
import ConfigManager.Shutdown

/-! # Processes one after the other

A process of `main` may end in any way and at any step; the next one has the table it left,
and nothing else.  Still each row is accounted for once: its record was sent, or was missed,
by the process that stored it.  While executions commit hashes the table does not have, no
hash is sent twice, whatever ends and starts in between: `sent_over_lives`.

What a process loses on the way is what it cancels or leaves on its queue (`loses`); a step
balances the rows it adds with that and with what is in hand: `balanced_step`.
-/
namespace ConfigManager

open Py Runs

namespace Process

/-- The executions, and what they share. -/
def system (s : Process) : System := ⟨s.world, s.jobs⟩

/-- The records that can still be sent. -/
def pending (s : Process) : List Record := s.queued ++ s.system.owed

/-- The records that no one will send after this. -/
def loses (s : Process) : Label → List Record
  | .cancel i => (s.jobs[i]?).elim [] Job.owed
  | .complete => s.queued
  | _ => []

/-- The records lost in a run. -/
def lost (env : Env) (s : Process) : List Label → List Record
  | [] => []
  | l :: labels => s.loses l ++ match step env s l with
      | some t => lost env t labels
      | none => []

/-- What a process that has come so far would miss if it ended now. -/
def missed (env : Env) (table : Table) (labels : List Label) (s : Process) : List Record :=
  s.pending ++ lost env (new table) labels

/-- What became of some processes. -/
structure Past where
  table : Table
  sent : List Record
  missed : List Record

/-- Processes over one table, each in its environment, one after the other. -/
def lives (table : Table) : List (Env × List Label) → Option Past
  | [] => some ⟨table, [], []⟩
  | (env, labels) :: later =>
      (run (step env) (new table) labels).bind fun s =>
        (lives s.world.table later).map fun past =>
          ⟨past.table, s.sent ++ past.sent, s.missed env table labels ++ past.missed⟩

/-- Something is so of each process. -/
def EachLife (P : Table → Env → List Label → Prop) (table : Table) :
    List (Env × List Label) → Prop
  | [] => True
  | (env, labels) :: later => P table env labels ∧
      ∀ s, run (step env) (new table) labels = some s → EachLife P s.world.table later

instance decidableEachLife {P : Table → Env → List Label → Prop}
    [∀ table env labels, Decidable (P table env labels)] (table : Table) :
    (runs : List (Env × List Label)) → Decidable (EachLife P table runs)
  | [] => .isTrue trivial
  | (env, labels) :: later =>
      have : Decidable (∀ s, run (step env) (new table) labels = some s →
          EachLife P s.world.table later) :=
        match run (step env) (new table) labels with
        | none => .isTrue fun _ hs => nomatch hs
        | some s => match decidableEachLife s.world.table later with
          | .isTrue hlater => .isTrue fun _ hs => Option.some.inj hs ▸ hlater
          | .isFalse hlater => .isFalse fun hall => hlater (hall s rfl)
      inferInstanceAs (Decidable (_ ∧ _))

/-- An execution that commits finds none of its batch's hashes in the table. -/
def CommitsUnstored (s : Process) : Label → Prop
  | .act i l => System.CommitsUnstored s.system (.act i l)
  | _ => True

instance decidableCommitsUnstored (s : Process) : (l : Label) → Decidable (s.CommitsUnstored l)
  | .act i .committed => inferInstanceAs (Decidable (∀ j ∈ s.jobs[i]?, ∀ c ∈ j.staged,
      c.configHash ∉ s.world.table.hashes))
  | .act _ (.scraped _) | .act _ .aborted | .act _ (.resume _ _) | .act _ .gathered
  | .act _ .queried | .act _ .raised | .act _ .put | .launch | .take | .shutdown | .cancel _
  | .stopWorkers | .complete => .isTrue trivial

/-- Executions commit only hashes that the table does not have. -/
def Careful (table : Table) (env : Env) (labels : List Label) : Prop :=
  Meets (step env) CommitsUnstored (new table) labels

instance decidableCareful (table : Table) (env : Env) (labels : List Label) :
    Decidable (Careful table env labels) :=
  inferInstanceAs (Decidable (Meets _ _ _ _))

/-- A process that cancels nothing with records owed, and ends with nothing to send. -/
def EndsIdle (table : Table) (env : Env) (labels : List Label) : Prop :=
  Meets (step env) NothingPending (new table) labels ∧
    ∀ s, run (step env) (new table) labels = some s → s.pending = []

/-- The rows added are balanced by the records in hand before and after, and lost. -/
def Balanced (s t : Process) (lost : List Record) : Prop :=
  ∃ rows, t.world.table = s.world.table ++ rows ∧
    (rows.map Row.unsourced ++ (s.sent ++ s.pending).map (Table.rowOf none)).Perm
      ((t.sent ++ t.pending ++ lost).map (Table.rowOf none))

variable {env : Env} {s t u : Process} {l : Label} {labels : List Label} {table : Table}
  {runs : List (Env × List Label)} {past : Past}

/-! ## Balance -/

theorem Balanced.of_perm {lost : List Record} (htable : t.world.table = s.world.table)
    (hperm : (s.sent ++ s.pending).Perm (t.sent ++ t.pending ++ lost)) : Balanced s t lost :=
  ⟨[], by rw [htable, List.append_nil], hperm.map _⟩

theorem Balanced.trans {lost lost' : List Record} (h : Balanced s t lost)
    (h' : Balanced t u lost') : Balanced s u (lost ++ lost') := by
  obtain ⟨rows, htable, hperm⟩ := h
  obtain ⟨rows', htable', hperm'⟩ := h'
  refine ⟨rows ++ rows', by rw [htable', htable, List.append_assoc], ?_⟩
  simp only [List.map_append] at hperm hperm' ⊢
  rw [List.perm_iff_count] at *
  intro row
  have hcount := hperm row
  have hcount' := hperm' row
  simp only [List.count_append] at hcount hcount' ⊢
  omega

/-- What the executions owe with and without a step of the `i`th. -/
theorem system_owed_set {i : Nat} {j : Job} (hj : s.jobs[i]? = some j) :
    ∃ before after, s.system.owed = before ++ (j.owed ++ after) ∧
      ∀ w j', System.owed ⟨w, s.jobs.set i j'⟩ = before ++ (j'.owed ++ after) :=
  System.owed_set (s := s.system) hj

theorem balanced_act {i : Nat} {l : JobLabel} {j j' : Job} {w' : World}
    (hj : s.jobs[i]? = some j) (hmoved : j.step env s.world l = some (w', j')) :
    Balanced s { s with
      world := w'
      jobs := s.jobs.set i j'
      queued := s.queued ++ w'.enqueued.drop s.world.enqueued.length } [] := by
  obtain ⟨before, after, hold, hnew⟩ := system_owed_set hj
  cases Job.step_effect hmoved with
  | quiet _ howed howed' _ =>
    refine .of_perm rfl (List.Perm.of_eq ?_)
    simp only [pending, system, List.drop_length, List.append_nil] at hold ⊢
    rw [hold, hnew, howed, howed']
  | @commit source _ howed howed' _ =>
    refine ⟨j.staged.map (Table.rowOf (some source)), rfl, ?_⟩
    simp only [pending, system, List.drop_length, List.append_nil] at hold ⊢
    rw [hold, hnew, howed, howed', List.map_map]
    -- The rows of what was staged are those of what is owed now.
    have hrows : Row.unsourced ∘ Table.rowOf (some source) = Table.rowOf none := rfl
    rw [hrows, ← List.map_append]
    refine List.Perm.map _ (List.perm_append_comm.trans ?_)
    simp only [List.nil_append, List.append_assoc]
    exact List.Perm.append_left _ (List.Perm.append_left _ (List.Perm.append_left _
      List.perm_append_comm))
  | @enqueue item _ howed _ =>
    refine .of_perm rfl ?_
    simp only [pending, system, List.drop_left, List.append_nil, List.append_assoc] at hold ⊢
    rw [hold, hnew, howed]
    refine List.Perm.append_left _ (List.Perm.append_left _ ?_)
    exact List.perm_middle

/-- **A step balances** the rows it adds with what it leaves in hand and what it loses. -/
theorem balanced_step (h : step env s l = some t) : Balanced s t (s.loses l) := by
  obtain ⟨-, hmoves⟩ := step_cases h
  cases hmoves with
  | act hj hmoved => exact balanced_act hj hmoved
  | launch =>
    refine .of_perm rfl (List.Perm.of_eq ?_)
    simp [pending, system, System.owed, loses]
  | take hqueued =>
    refine .of_perm rfl (List.Perm.of_eq ?_)
    simp [pending, system, System.owed, hqueued, loses]
  | shutdown => exact .of_perm rfl (List.Perm.of_eq (List.append_nil _).symm)
  | stopWorkers => exact .of_perm rfl (List.Perm.of_eq (List.append_nil _).symm)
  | @cancel i j hj =>
    -- The other executions owe what they owed.
    obtain ⟨before, after, hold, hnew⟩ := system_owed_set hj
    have hnone : Job.owed ⟨j.validator, .done⟩ = [] := rfl
    have hloses : s.loses (.cancel i) = j.owed := by rw [loses, hj]; rfl
    refine .of_perm rfl ?_
    simp only [pending, system] at hold ⊢
    rw [hold, hnew, hnone, hloses]
    simp only [List.nil_append, List.append_assoc]
    exact List.Perm.append_left _ (List.Perm.append_left _ (List.Perm.append_left _
      List.perm_append_comm))
  | complete =>
    refine .of_perm rfl ?_
    simp only [pending, system, loses, List.nil_append, List.append_assoc]
    exact List.Perm.append_left _ List.perm_append_comm

theorem balanced_run (h : run (step env) s labels = some t) :
    Balanced s t (lost env s labels) := by
  induction labels generalizing s with
  | nil =>
    obtain rfl := Option.some.inj h
    exact .of_perm rfl (List.Perm.of_eq (List.append_nil _).symm)
  | cons l labels ih =>
    obtain ⟨u, hu, h⟩ := Option.bind_eq_some_iff.mp h
    rw [lost, hu]
    exact (balanced_step hu).trans (ih h)

/-! ## What loses nothing -/

theorem loses_eq_nil_iff : s.loses l = [] ↔ NothingPending s l := by
  cases l with
  | cancel i =>
    simp only [loses, NothingPending]
    cases s.jobs[i]? <;> simp
  | complete => exact Iff.rfl
  | _ => exact iff_of_true rfl trivial

theorem lost_eq_nil_iff (h : run (step env) s labels = some t) :
    lost env s labels = [] ↔ Meets (step env) NothingPending s labels := by
  induction labels generalizing s with
  | nil => exact iff_of_true rfl trivial
  | cons l labels ih =>
    obtain ⟨u, hu, h⟩ := Option.bind_eq_some_iff.mp h
    rw [meets_cons hu, lost, hu, List.append_eq_nil_iff, loses_eq_nil_iff]
    exact and_congr_right fun _ => ih h

/-- A process misses nothing exactly if it ends idle. -/
theorem missed_eq_nil_iff (h : run (step env) (new table) labels = some s) :
    s.missed env table labels = [] ↔ EndsIdle table env labels := by
  rw [missed, List.append_eq_nil_iff, lost_eq_nil_iff h, and_comm]
  refine and_congr_right fun _ => ⟨fun hs u hu => ?_, fun hall => hall s h⟩
  obtain rfl : s = u := Option.some.inj (h.symm.trans hu)
  exact hs

/-! ## What keeps the hashes distinct -/

/-- The executions of a process are a system, of which some are cancelled. -/
theorem systemInv_step (hs : System.Inv env s.system) (hc : CommitsUnstored s l)
    (h : step env s l = some t) : System.Inv env t.system := by
  obtain ⟨-, hmoves⟩ := step_cases h
  cases hmoves with
  | @act i l j j' w' hj hmoved =>
    refine System.inv_step hs (l := .act i l) hc ?_
    show (s.jobs[i]?).bind _ = _
    rw [hj]
    show (j.step env s.world l).map _ = _
    rw [hmoved]
    rfl
  | launch => exact System.inv_step hs (l := .launch) trivial rfl
  | @cancel i j hj =>
    obtain ⟨before, after, hold, hnew⟩ := system_owed_set hj
    have hsub : (System.owed ⟨s.world, s.jobs.set i ⟨j.validator, .done⟩⟩).Sublist
        s.system.owed := by
      rw [hold, hnew s.world]
      exact List.Sublist.append_left (List.Sublist.append_right (List.nil_sublist _) _) _
    refine ⟨fun k hk => ?_, hs.stored, ?_, fun c hmem => ?_⟩
    · rcases List.mem_or_eq_of_mem_set hk with hk | rfl
      · exact hs.valid k hk
      · trivial
    · exact hs.distinct.sublist ((hsub.append_left _).map _)
    · exact hs.covered c ((hsub.append_left _).subset hmem)
  | take => exact hs
  | shutdown => exact hs
  | stopWorkers => exact hs
  | complete => exact hs

theorem stored_run (htable : table.hashes.Nodup)
    (hc : Meets (step env) CommitsUnstored (new table) labels)
    (h : run (step env) (new table) labels = some s) : s.world.table.hashes.Nodup :=
  (visited_of_inv (fun _ _ _ => systemInv_step) (System.inv_new env htable) hc s
    (mem_visited_last h)).stored

/-! ## Lives -/

/-- What the first of some processes leaves to the others. -/
theorem lives_cons {env : Env} {labels : List Label} {later : List (Env × List Label)}
    (h : lives table ((env, labels) :: later) = some past) :
    ∃ s rest, run (step env) (new table) labels = some s ∧
      lives s.world.table later = some rest ∧
      past = ⟨rest.table, s.sent ++ rest.sent, s.missed env table labels ++ rest.missed⟩ := by
  obtain ⟨s, hs, h⟩ := Option.bind_eq_some_iff.mp h
  obtain ⟨rest, hrest, rfl⟩ := Option.map_eq_some_iff.mp h
  exact ⟨s, rest, hs, hrest, rfl⟩

theorem rows_lives (h : lives table runs = some past) :
    ∃ rows, past.table = table ++ rows ∧
      (rows.map Row.unsourced).Perm ((past.sent ++ past.missed).map (Table.rowOf none)) := by
  induction runs generalizing table past with
  | nil =>
    obtain rfl := Option.some.inj h
    exact ⟨[], (List.append_nil _).symm, .nil⟩
  | cons life later ih =>
    obtain ⟨s, rest, hrun, hrest, rfl⟩ := lives_cons h
    obtain ⟨rows, htable, hperm⟩ := balanced_run hrun
    obtain ⟨rows', htable', hperm'⟩ := ih hrest
    refine ⟨rows ++ rows', ?_, ?_⟩
    · show rest.table = _
      rw [htable', htable, List.append_assoc]
      rfl
    · have hnone : (new table).sent ++ (new table).pending = [] := rfl
      rw [hnone, List.map_nil, List.append_nil] at hperm
      simp only [missed, List.map_append] at hperm hperm' ⊢
      rw [List.perm_iff_count] at *
      intro row
      have hcount := hperm row
      have hcount' := hperm' row
      simp only [List.count_append] at hcount hcount' ⊢
      omega

theorem stored_lives (htable : table.hashes.Nodup)
    (hc : EachLife Careful table runs) (h : lives table runs = some past) :
    past.table.hashes.Nodup := by
  induction runs generalizing table past with
  | nil =>
    obtain rfl := Option.some.inj h
    exact htable
  | cons life later ih =>
    obtain ⟨s, rest, hrun, hrest, rfl⟩ := lives_cons h
    show rest.table.hashes.Nodup
    exact ih (stored_run htable hc.1 hrun) (hc.2 s hrun) hrest

theorem missed_lives (h : lives table runs = some past) :
    past.missed = [] ↔ EachLife EndsIdle table runs := by
  induction runs generalizing table past with
  | nil =>
    obtain rfl := Option.some.inj h
    exact iff_of_true rfl trivial
  | cons life later ih =>
    obtain ⟨s, rest, hrun, hrest, rfl⟩ := lives_cons h
    rw [List.append_eq_nil_iff, missed_eq_nil_iff hrun, ih hrest]
    refine and_congr_right fun _ => ⟨fun hs u hu => ?_, fun hall => hall s hrun⟩
    obtain rfl : s = u := Option.some.inj (hrun.symm.trans hu)
    exact hs

/-- **Every config is sent once, or missed.**  Over any number of processes, each of which may
end at any step, the table grows by the rows of the records that were sent and of those that
were missed, each once.  None is missed exactly if every process ends idle.  And if the
hashes were distinct and every execution commits hashes the table does not have, then those
of all records sent or missed are distinct: no process sends what it or another one has. -/
theorem sent_over_lives (table : Table) (runs : List (Env × List Label)) (past : Past)
    (h : lives table runs = some past) :
    (∃ rows, past.table = table ++ rows ∧
      (rows.map Row.unsourced).Perm ((past.sent ++ past.missed).map (Table.rowOf none))) ∧
    (past.missed = [] ↔ EachLife EndsIdle table runs) ∧
    (table.hashes.Nodup → EachLife Careful table runs →
      past.table.hashes.Nodup ∧ ((past.sent ++ past.missed).map Record.configHash).Nodup) := by
  obtain ⟨rows, htable, hperm⟩ := rows_lives h
  refine ⟨⟨rows, htable, hperm⟩, missed_lives h, fun hnodup hc => ?_⟩
  have hstored := stored_lives hnodup hc h
  refine ⟨hstored, ?_⟩
  rw [htable, Table.hashes, List.map_append] at hstored
  -- The hashes of the records are those of the rows.
  have hhashes := hperm.map Row.configHash
  rw [List.map_map, List.map_map] at hhashes
  exact hhashes.nodup_iff.mp (List.nodup_append.mp hstored).2.1

/-- The first process is cancelled before it puts its item; the second one scrapes the same
link. -/
def cancelledThenAgain : List (Env × List Label) :=
  [(Env.sample, cancelledBetween), (Env.sample, untilCommitted.dropLast)]

theorem sent_over_cancelledThenAgain :
    ∃ past, lives [] cancelledThenAgain = some past ∧ past.missed.length = 1 ∧
      (∃ rows, past.table = [] ++ rows ∧
        (rows.map Row.unsourced).Perm ((past.sent ++ past.missed).map (Table.rowOf none))) ∧
      (past.missed = [] ↔ EachLife EndsIdle [] cancelledThenAgain) ∧
      past.table.hashes.Nodup ∧ ((past.sent ++ past.missed).map Record.configHash).Nodup := by
  have hlives : (lives [] cancelledThenAgain).any (fun past => past.missed.length = 1) = true := by
    decide +kernel
  obtain ⟨past, hpast, hmissed⟩ := (Option.any_eq_true _ _).mp hlives
  obtain ⟨hrows, hidle, hdistinct⟩ := sent_over_lives [] cancelledThenAgain past hpast
  exact ⟨past, hpast, of_decide_eq_true hmissed, hrows, hidle,
    hdistinct List.nodup_nil (by decide +kernel)⟩

end Process
end ConfigManager
