import ConfigManager.CleanIpGeneration
import ConfigManager.IpImport
import ConfigManager.Py.KeyedRows

/-! # The clean IPs (`clean_ips`)

An admin types an IP or a list of them, or uploads a file of them, and an upload first deletes
what is five days old.  `add_clean_ip` leaves an IP that is there as it is: to send it again
does not make it newer, and what is deleted is not what was sent last five days ago, but what
was sent first.  `cleanIps_of_imports` says what is in the table after any imports.

Times are in seconds, as `CURRENT_TIMESTAMP` of SQLite has them.
-/
namespace ConfigManager

open Py Runs

/-- The column `ip`. -/
def CleanIp.ip (row : CleanIp) : Str := row.address.text

/-- Five days. -/
def cleanIpLifetime : Nat := 5 * 24 * 60 * 60

/-- `created_at < cutoff`.  SQLite compares texts, of which only that of the cutoff goes on
behind the seconds: five days on the second are enough. -/
def CleanIp.isOld (now : Nat) (row : CleanIp) : Bool := row.createdAt + cleanIpLifetime ≤ now

theorem isOld_eq_false_iff {now : Nat} {row : CleanIp} :
    row.isOld now = false ↔ now < row.createdAt + cleanIpLifetime := by
  rw [CleanIp.isOld, decide_eq_false_iff_not, Nat.not_le]

/-- `add_clean_ip`. -/
def addCleanIp (now : Nat) (rows : List CleanIp) (address : CleanAddress) : List CleanIp :=
  if address.text ∈ rows.map CleanIp.ip then rows else rows ++ [⟨address, now⟩]

/-- `delete_old_clean_ips`. -/
def deleteOldCleanIps (now : Nat) (rows : List CleanIp) : List CleanIp :=
  rows.filter fun row => !row.isOld now

/-- A call that goes through. -/
inductive IpCall where
  | add (address : CleanAddress)
  | deleteOld

/-- Calls, with their times. -/
abbrev IpHistory := List (Nat × IpCall)

namespace IpCall

def run (rows : List CleanIp) : Nat × IpCall → List CleanIp
  | (now, .add address) => addCleanIp now rows address
  | (now, .deleteOld) => deleteOldCleanIps now rows

/-- The change of the table it is. -/
def change : Nat × IpCall → Change CleanIp.ip
  | (now, .add address) => .insert ⟨address, now⟩
  | (now, .deleteOld) => .delete (CleanIp.isOld now)

theorem run_eq_apply (rows : List CleanIp) (call : Nat × IpCall) :
    run rows call = (change call).apply rows := by
  obtain ⟨now, call⟩ := call
  cases call with
  | add address =>
    refine Eq.trans ?_ (apply_insert rows _).symm
    by_cases h : address.text ∈ rows.map CleanIp.ip
    · exact (if_pos h).trans (if_pos h).symm
    · exact (if_neg h).trans (if_neg h).symm
  | deleteOld => rfl

theorem plain_change (call : Nat × IpCall) : (change call).Plain := by
  obtain ⟨now, call⟩ := call
  cases call with
  | add address => exact .inl ⟨_, rfl⟩
  | deleteOld => exact .inr ⟨_, rfl⟩

theorem change_eq_insert {call : Nat × IpCall} {row : CleanIp} (h : change call = .insert row) :
    call = (row.createdAt, .add row.address) := by
  obtain ⟨now, call⟩ := call
  cases call with
  | add address =>
    injection h with h
    rw [← h]
  | deleteOld => cases h

end IpCall

/-- `clean_ips` after some calls. -/
def cleanIps (history : IpHistory) : List CleanIp := history.foldl IpCall.run []

theorem cleanIps_eq (history : IpHistory) :
    cleanIps history = (history.map IpCall.change).foldl Change.apply [] := by
  rw [List.foldl_map, cleanIps]
  congr 1
  funext rows call
  exact IpCall.run_eq_apply rows call

/-- No IP is there twice. -/
theorem nodup_cleanIps (history : IpHistory) : ((cleanIps history).map CleanIp.ip).Nodup := by
  rw [cleanIps_eq]
  exact nodup_history _

/-- **What is there**: the IPs that were sent when they were not there, and that no upload has
come upon when they were five days old. -/
theorem mem_cleanIps_iff {history : IpHistory} {row : CleanIp} :
    row ∈ cleanIps history ↔ ∃ before after,
      history = before ++ (row.createdAt, .add row.address) :: after ∧
      row.ip ∉ (cleanIps before).map CleanIp.ip ∧
      ∀ now, (now, IpCall.deleteOld) ∈ after → now < row.createdAt + cleanIpLifetime := by
  have hplain : ∀ c ∈ history.map IpCall.change, c.Plain := fun c hc => by
    obtain ⟨call, -, rfl⟩ := List.mem_map.mp hc
    exact IpCall.plain_change call
  rw [cleanIps_eq, mem_foldl_iff hplain]
  constructor
  · rintro ⟨before, after, heq, hnew, hkept⟩
    obtain ⟨first, rest, rfl, rfl, hrest⟩ := List.map_eq_append_iff.mp heq
    obtain ⟨call, last, rfl, hcall, rfl⟩ := List.map_eq_cons_iff.mp hrest
    refine ⟨first, last, by rw [IpCall.change_eq_insert hcall], ?_, fun now hnow => ?_⟩
    · rwa [cleanIps_eq]
    · have hold := hkept _ (List.mem_map_of_mem hnow)
      rw [IpCall.change, Change.deletes_delete] at hold
      exact isOld_eq_false_iff.mp hold
  · rintro ⟨before, after, rfl, hnew, hkept⟩
    refine ⟨before.map IpCall.change, after.map IpCall.change, by rw [List.map_append]; rfl, ?_,
      fun c hc => ?_⟩
    · rwa [← cleanIps_eq]
    · obtain ⟨⟨now, call⟩, hcall, rfl⟩ := List.mem_map.mp hc
      cases call with
      | add address => rfl
      | deleteOld =>
        rw [IpCall.change, Change.deletes_delete]
        exact isOld_eq_false_iff.mpr (hkept now hcall)

/-! ## Imports -/

/-- What an admin sends. -/
inductive IpImport where
  | single (message : Str)
  | bulk (message : Str)
  | upload (content : Str)

/-- The IPs that are to be added. -/
def IpImport.ips : IpImport → List Str
  | .single message => [strip (strip message)].filter isValidIp
  | .bulk message => bulkIps message
  | .upload content => uploadedIps content

theorem valid_of_mem_ips (i : IpImport) : ∀ ip ∈ i.ips, isValidIp ip = true ∧ NoSpace ip := by
  have hone : ∀ {s}, isValidIp (strip s) = true → isValidIp (strip s) = true ∧ NoSpace (strip s) :=
    fun h => ⟨h, noSpace_of_free (isSeparator_of_isValidIp h)⟩
  intro ip hip
  cases i with
  | single message =>
    obtain ⟨hip, hvalid⟩ := List.mem_filter.mp hip
    obtain rfl := List.mem_singleton.mp hip
    exact hone hvalid
  | bulk message =>
    obtain ⟨hip, hvalid⟩ := List.mem_filter.mp hip
    obtain ⟨word, -, rfl⟩ := List.mem_map.mp hip
    exact hone hvalid
  | upload content =>
    obtain ⟨hip, hvalid⟩ := List.mem_filter.mp hip
    obtain ⟨line, -, rfl⟩ := List.mem_map.mp hip
    exact hone (Bool.and_eq_true_iff.mp hvalid).2

/-- The same, as `clean_ips` has them. -/
def IpImport.addresses (i : IpImport) : List CleanAddress :=
  i.ips.pmap (fun ip h => ⟨ip, h.1, h.2⟩) (valid_of_mem_ips i)

theorem map_text_addresses (i : IpImport) : i.addresses.map CleanAddress.text = i.ips := by
  rw [IpImport.addresses, List.map_pmap]
  exact List.pmap_eq_self.mpr fun _ _ => rfl

/-- An import: the first call of `add_clean_ip` that raises is its last. -/
structure Importing where
  source : IpImport
  start : Nat
  /-- The times of the calls of `add_clean_ip` that return. -/
  added : List Nat

/-- An upload deletes first. -/
def Importing.history (i : Importing) : IpHistory :=
  (match i.source with
    | .upload _ => [(i.start, .deleteOld)]
    | _ => []) ++
  (i.added.zip i.source.addresses).map fun (now, address) => (now, .add address)

/-- The calls of some imports. -/
def importHistory (imports : List Importing) : IpHistory := imports.flatMap Importing.history

theorem mem_map_addCleanIp {now : Nat} {rows : List CleanIp} {address : CleanAddress} {ip : Str} :
    ip ∈ (addCleanIp now rows address).map CleanIp.ip ↔
      ip ∈ rows.map CleanIp.ip ∨ ip = address.text := by
  unfold addCleanIp
  split
  next h =>
    refine ⟨.inl, fun hip => hip.elim id ?_⟩
    rintro rfl
    exact h
  next =>
    rw [List.map_append, List.mem_append]
    exact or_congr_right List.mem_singleton

theorem mem_map_foldl_adds {adds : List (Nat × CleanAddress)} {rows : List CleanIp} {ip : Str} :
    ip ∈ (adds.foldl (fun rows add => addCleanIp add.1 rows add.2) rows).map CleanIp.ip ↔
      ip ∈ rows.map CleanIp.ip ∨ ip ∈ adds.map fun add => add.2.text := by
  induction adds generalizing rows with
  | nil => simp
  | cons add adds ih =>
    rw [List.foldl_cons, ih, mem_map_addCleanIp, List.map_cons, List.mem_cons, or_assoc]

/-- **An import without exceptions** has all its IPs in the table. -/
theorem mem_of_imported {imports : List Importing} {i : Importing}
    (hadded : i.source.ips.length ≤ i.added.length) {ip : Str} (hip : ip ∈ i.source.ips) :
    ip ∈ (cleanIps (importHistory (imports ++ [i]))).map CleanIp.ip := by
  have hzip : (i.added.zip i.source.addresses).map (fun add => add.2.text) = i.source.ips := by
    have hlen : i.source.addresses.length ≤ i.added.length := by
      rwa [← map_text_addresses, List.length_map] at hadded
    conv_rhs => rw [← map_text_addresses, ← List.map_snd_zip hlen, List.map_map]
    rfl
  rw [importHistory, List.flatMap_append, List.flatMap_singleton, Importing.history,
    ← List.append_assoc, cleanIps, List.foldl_append, List.foldl_map]
  refine mem_map_foldl_adds.mpr (.inr ?_)
  rwa [hzip]

/-! ## In time -/

/-- Time does not go back. -/
def InOrder (history : IpHistory) : Prop := history.Pairwise fun a b => a.1 ≤ b.1

instance decidableInOrder (history : IpHistory) : Decidable (InOrder history) :=
  inferInstanceAs (Decidable (List.Pairwise _ history))

variable {history : IpHistory}

theorem call_of_mem_cleanIps {row : CleanIp} (h : row ∈ cleanIps history) :
    (row.createdAt, .add row.address) ∈ history := by
  obtain ⟨before, after, rfl, -, -⟩ := mem_cleanIps_iff.mp h
  simp

/-- **The rows are in the order of their age.** -/
theorem pairwise_cleanIps (horder : InOrder history) :
    (cleanIps history).Pairwise fun a b => a.createdAt ≤ b.createdAt := by
  induction history using List.reverseRecOn with
  | nil => exact List.Pairwise.nil
  | append_singleton history call ih =>
    obtain ⟨hhistory, -, hlast⟩ := List.pairwise_append.mp horder
    have ih := ih hhistory
    have hrows : cleanIps (history ++ [call]) = IpCall.run (cleanIps history) call := by
      rw [cleanIps, List.foldl_append]
      rfl
    rw [hrows]
    obtain ⟨now, call⟩ := call
    cases call with
    | add address =>
      show (addCleanIp now (cleanIps history) address).Pairwise _
      unfold addCleanIp
      split
      · exact ih
      · refine List.pairwise_append.mpr
          ⟨ih, List.pairwise_singleton .., fun row hrow new hnew => ?_⟩
        rw [List.mem_singleton.mp hnew]
        exact hlast _ (call_of_mem_cleanIps hrow) _ (List.mem_singleton_self _)
    | deleteOld => exact ih.sublist List.filter_sublist

/-- **No upload has come upon a row that is there when it was five days old.** -/
theorem lt_of_mem_cleanIps (horder : InOrder history) {row : CleanIp}
    (h : row ∈ cleanIps history) {now : Nat} (hnow : (now, IpCall.deleteOld) ∈ history) :
    now < row.createdAt + cleanIpLifetime := by
  obtain ⟨before, after, rfl, -, hkept⟩ := mem_cleanIps_iff.mp h
  rcases List.mem_append.mp hnow with hnow | hnow
  · have hle : now ≤ row.createdAt :=
      (List.pairwise_append.mp horder).2.2 _ hnow _ (List.mem_cons_self ..)
    have hpos : 0 < cleanIpLifetime := by norm_num [cleanIpLifetime]
    exact hle.trans_lt (Nat.lt_add_of_pos_right hpos)
  · rcases List.mem_cons.mp hnow with heq | hnow
    · cases heq
    · exact hkept now hnow

/-! ## The bot's IPs -/

/-- The action a call is for the bot. -/
def IpCall.action (rows : List CleanIp) : Nat × IpCall → Action
  | (_, .add address) => .addCleanIp address.text
  | (now, .deleteOld) => .deleteOldCleanIps ((rows.filter (CleanIp.isOld now)).map CleanIp.ip)

/-- The actions some calls are. -/
def ipActions (rows : List CleanIp) : IpHistory → List Action
  | [] => []
  | call :: history => IpCall.action rows call :: ipActions (IpCall.run rows call) history

theorem cleanIps_perform_action {b : Bot} {rows : List CleanIp}
    (hips : b.cleanIps = rows.map CleanIp.ip) (hkeys : (rows.map CleanIp.ip).Nodup)
    (call : Nat × IpCall) :
    (b.perform (IpCall.action rows call)).cleanIps =
      (IpCall.run rows call).map CleanIp.ip := by
  obtain ⟨now, call⟩ := call
  cases call with
  | add address =>
    show (b.addCleanIp address.text).cleanIps = (addCleanIp now rows address).map CleanIp.ip
    rw [Bot.addCleanIp, addCleanIp, hips]
    split
    · exact hips
    · rw [List.map_append]
      rfl
  | deleteOld =>
    show b.cleanIps.filter _ = (rows.filter _).map CleanIp.ip
    rw [hips, List.filter_map]
    refine congrArg _ (List.filter_congr fun row hrow => ?_)
    -- An old row has the IP of no other row.
    have hold : row.ip ∈ (rows.filter (CleanIp.isOld now)).map CleanIp.ip ↔
        row.isOld now = true := by
      refine ⟨fun h => ?_, fun h => List.mem_map_of_mem (List.mem_filter.mpr ⟨hrow, h⟩)⟩
      obtain ⟨old, hmem, heq⟩ := List.mem_map.mp h
      obtain ⟨hmem, hisold⟩ := List.mem_filter.mp hmem
      rwa [List.inj_on_of_nodup_map hkeys hmem hrow heq] at hisold
    show decide (row.ip ∉ _) = !row.isOld now
    rw [Bool.eq_iff_iff, decide_eq_true_iff, hold]
    simp

/-- **The bot has the IPs of the table**, whatever is called. -/
theorem cleanIps_perform {b : Bot} {rows : List CleanIp}
    (hips : b.cleanIps = rows.map CleanIp.ip) (hkeys : (rows.map CleanIp.ip).Nodup)
    (history : IpHistory) :
    ((ipActions rows history).foldl Bot.perform b).cleanIps =
      (history.foldl IpCall.run rows).map CleanIp.ip := by
  induction history generalizing b rows with
  | nil => exact hips
  | cons call history ih =>
    refine ih (cleanIps_perform_action hips hkeys call) ?_
    rw [IpCall.run_eq_apply]
    exact nodup_apply hkeys _

/-! ## All imports -/

/-- **What is in the table** after any imports: no IP twice, the older ones first; an IP that
was sent when it was not there, until an upload comes upon it when it is five days old, and
then no more until it is sent again; and all IPs of the last import, if none of its calls has
raised.  The bot's IPs are these. -/
theorem cleanIps_of_imports (imports : List Importing) (b : Bot) (hbot : b.cleanIps = [])
    (horder : InOrder (importHistory imports)) :
    ((cleanIps (importHistory imports)).map CleanIp.ip).Nodup ∧
      ((cleanIps (importHistory imports)).Pairwise fun a b => a.createdAt ≤ b.createdAt) ∧
      (∀ row, row ∈ cleanIps (importHistory imports) ↔ ∃ before after,
        importHistory imports = before ++ (row.createdAt, .add row.address) :: after ∧
        row.ip ∉ (cleanIps before).map CleanIp.ip ∧
        ∀ now, (now, IpCall.deleteOld) ∈ after → now < row.createdAt + cleanIpLifetime) ∧
      (∀ row ∈ cleanIps (importHistory imports), ∀ now,
        (now, IpCall.deleteOld) ∈ importHistory imports →
          now < row.createdAt + cleanIpLifetime) ∧
      (∀ init i, imports = init ++ [i] → i.source.ips.length ≤ i.added.length →
        ∀ ip ∈ i.source.ips, ip ∈ (cleanIps (importHistory imports)).map CleanIp.ip) ∧
      ((ipActions [] (importHistory imports)).foldl Bot.perform b).cleanIps =
        (cleanIps (importHistory imports)).map CleanIp.ip := by
  have hnil : (([] : List CleanIp).map CleanIp.ip).Nodup := List.nodup_nil
  refine ⟨nodup_cleanIps _, pairwise_cleanIps horder, fun row => mem_cleanIps_iff,
    fun row hrow now => lt_of_mem_cleanIps horder hrow, ?_, cleanIps_perform hbot hnil _⟩
  rintro init i rfl hadded ip hip
  exact mem_of_imported hadded hip

/-- An IP is uploaded, sent again on the fourth day, and deleted on the fifth. -/
def sampleImports : List Importing :=
  [⟨.upload "8.8.8.8\n".toList, 0, [0]⟩, ⟨.single " 8.8.8.8".toList, 345600, [345600]⟩,
    ⟨.upload "1.1.1.1\n".toList, 432000, [432000]⟩]

theorem cleanIps_of_sampleImports :
    (cleanIps (importHistory sampleImports)).map CleanIp.ip = ["1.1.1.1".toList] ∧
      ∀ row ∈ cleanIps (importHistory sampleImports), ∀ now,
        (now, IpCall.deleteOld) ∈ importHistory sampleImports →
          now < row.createdAt + cleanIpLifetime :=
  ⟨by decide +kernel, (cleanIps_of_imports sampleImports ⟨1, ∅, ∅, [], [], [], true, [], []⟩ rfl
    (by decide +kernel)).2.2.2.1⟩

end ConfigManager
