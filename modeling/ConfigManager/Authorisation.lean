import ConfigManager.Conversations

/-! # Permission when it is used

A prompt button of the panel asks whether its user is an administrator.  What the
prompt asks for comes later, in a text or a document, and the owner may have removed
the administrator by then, so the handlers ask again.

Three of them do not: those of a single IP, of a list of IPs, and of the performance
test.  Every action is taken for somebody with permission exactly if whoever still has
one of these prompts open, and answers it with something the handler acts on, is still
an administrator (`authorised_iff`).
-/
namespace ConfigManager

open Py Runs

/-- The action was taken for the owner, or for somebody in the admins table then. -/
def Performed.Authorised (ownerId : Int) (p : Performed) : Prop :=
  p.userId = ownerId ∨ p.userId ∈ p.admins

namespace Service

/-- Every action so far was taken with permission. -/
def Authorised (s : Service) : Prop := ∀ p ∈ s.performed, p.Authorised s.bot.ownerId

instance (s : Service) : Decidable s.Authorised :=
  inferInstanceAs (Decidable (∀ p ∈ s.performed, _ ∨ _))

/-- What a handler that does not ask for permission acts on. -/
def ActsUnasked (text : Str) (around : Surroundings) : Flag → Prop
  | .awaitingIpSingle => isValidIp text = true
  | .awaitingIpBulk => ∃ ip ∈ words text, isValidIp ip = true
  | .awaitingWhitePerfCount =>
      ∃ count, int text = some count ∧ 100 ≤ count ∧ count ≤ 1000 ∧
        around.xrayFound = true ∧ around.testRows = true
  | _ => False

/-- A text that a handler acts on unasked is that of an administrator. -/
def AdminAtUse (s : Service) : Event → Prop
  | .text userId message around =>
      ∀ flag ∈ consumer (s.userData userId), ActsUnasked (strip message) around flag →
        s.bot.isAdmin userId = true
  | _ => True

variable {s t : Service} {e : Event} {b : Bot} {userId : Int} {text : Str}
  {around : Surroundings} {flag : Flag}

/-! ## Who asks -/

theorem isAdmin_of_isOwner (h : b.isOwner userId = true) : b.isAdmin userId = true := by
  rw [Bot.isAdmin, h, Bool.true_or]

/-- A handler that acts has asked, or is one of the three. -/
theorem asked_or_unasked (h : textActions b userId text around flag ≠ []) :
    b.isAdmin userId = true ∨ ActsUnasked text around flag := by
  cases flag
  -- The three that act without asking: what they act on is what they need.
  case awaitingIpSingle =>
    refine .inr ?_
    by_contra hno
    exact h (if_neg hno)
  case awaitingIpBulk =>
    obtain ⟨action, haction⟩ := List.exists_mem_of_ne_nil _ h
    obtain ⟨ip, hip, -⟩ := List.mem_map.mp haction
    obtain ⟨hmem, hvalid⟩ := List.mem_filter.mp hip
    exact .inr ⟨ip, hmem, hvalid⟩
  case awaitingWhitePerfCount =>
    simp only [textActions] at h
    split at h
    next count hcount =>
      split at h
      next hok => exact .inr ⟨count, hcount, hok⟩
      · exact absurd rfl h
    · exact absurd rfl h
  case awaitingAdminId | awaitingRemoveAdmin =>
    by_cases howner : b.isOwner userId = true
    · exact .inl (isAdmin_of_isOwner howner)
    · exact absurd (if_neg howner) h
  -- These never act.
  case awaitingCount | awaitingCleanIp | awaitingConfigCount => exact absurd rfl h
  case awaitingScraperTg | awaitingScraperSub =>
    by_cases hadmin : b.isAdmin userId = true
    · exact .inl hadmin
    · exact absurd (if_neg fun hboth => hadmin hboth.1) h
  all_goals
    by_cases hadmin : b.isAdmin userId = true
    · exact .inl hadmin
    · exact absurd (if_neg hadmin) h

/-- What the three act on unasked, they act on. -/
theorem acts_of_unasked (h : ActsUnasked text around flag) :
    textActions b userId text around flag ≠ [] := by
  cases flag
  case awaitingIpSingle =>
    simp only [textActions, if_pos (show isValidIp text = true from h)]
    exact List.cons_ne_nil _ _
  case awaitingIpBulk =>
    obtain ⟨ip, hmem, hvalid⟩ := h
    exact List.ne_nil_of_mem (List.mem_map_of_mem (List.mem_filter.mpr ⟨hmem, hvalid⟩))
  case awaitingWhitePerfCount =>
    obtain ⟨count, hcount, hok⟩ := h
    simp only [textActions, hcount, if_pos hok]
    exact List.cons_ne_nil _ _
  all_goals exact absurd h id

/-- A document is asked for permission when it comes. -/
theorem isAdmin_of_document {d : UserData} {doc : Document}
    (h : documentActions b d userId doc ≠ []) : b.isAdmin userId = true := by
  by_cases htakes : TakesDocument b d userId doc
  · exact htakes.2.1
  · exact absurd (if_neg htakes) h

/-- **The condition decides permission**: it fails exactly at an event that leads to an
action for somebody who is no administrator. -/
theorem adminAtUse_iff :
    AdminAtUse s e ↔ (s.actions e ≠ [] → s.bot.isAdmin e.userId = true) := by
  cases e with
  | text userId message around =>
      simp only [AdminAtUse, actions, Event.userId]
      cases hc : consumer (s.userData userId) with
      | none => simp
      | some flag =>
          constructor
          · intro h hacts
            rcases asked_or_unasked hacts with hadmin | hunasked
            · exact hadmin
            · exact h flag rfl hunasked
          · rintro h _ ⟨⟩ hunasked
            exact h (acts_of_unasked hunasked)
  | document userId doc => exact ⟨fun _ h => isAdmin_of_document h, fun _ => trivial⟩
  | press userId button => simp [AdminAtUse, actions]
  | start userId => simp [AdminAtUse, actions]

/-! ## Runs -/

theorem authorised_new (b : Bot) (rows : List AdminRow) : (new b rows).Authorised := by
  simp [Authorised, new]

theorem isAdmin_iff : s.bot.isAdmin userId = true ↔
    userId = s.bot.ownerId ∨ userId ∈ s.bot.admins := by
  simp [Bot.isAdmin, Bot.isOwner]

/-- What an event adds to the actions taken. -/
theorem authorised_handle :
    (s.handle e).Authorised ↔
      s.Authorised ∧ (s.actions e ≠ [] → s.bot.isAdmin e.userId = true) := by
  rw [isAdmin_iff]
  simp only [Authorised, handle_ownerId]
  constructor
  · intro h
    refine ⟨fun p hp => h p (List.mem_append_left _ hp), fun hacts => ?_⟩
    obtain ⟨action, haction⟩ := List.exists_mem_of_ne_nil _ hacts
    exact h ⟨e.userId, action, s.bot.admins⟩
      (List.mem_append_right _ (List.mem_map_of_mem haction))
  · rintro ⟨hold, hnew⟩ p hp
    rcases List.mem_append.mp hp with hp | hp
    · exact hold p hp
    · obtain ⟨action, haction, rfl⟩ := List.mem_map.mp hp
      exact hnew (List.ne_nil_of_mem haction)

/-- **Exactly the histories in which every action is taken with permission**: those in
which every text that the single-IP, the IP-list or the performance-test handler acts on
is that of an administrator. -/
theorem authorised_iff (b : Bot) (rows : List AdminRow) (events : List Event) :
    (∀ s ∈ visited step (new b rows) events, s.Authorised) ↔
      Meets step AdminAtUse (new b rows) events := by
  refine safe_iff_meets (fun s (h : s.Authorised) => h) ?_ ?_ (authorised_new b rows)
    (isRun _ events)
  · rintro s e _ hs hc ⟨⟩
    exact authorised_handle.mpr ⟨hs, adminAtUse_iff.mp hc⟩
  · rintro s e _ hs hc ⟨⟩ ht
    exact hc (adminAtUse_iff.mpr (authorised_handle.mp ht).2)

/-- A bot owned by user 1, with user 2 as its only administrator. -/
def sample : Service :=
  new ⟨1, ∅, ∅, [1, 2], [], [], true, [], []⟩ [⟨2, 1⟩]

/-- User 2 is asked for an IP, the owner removes them, and they answer. -/
def removedMeanwhile : List Event :=
  [.press 2 .ipSingle, .press 1 .removeAdmin, .text 1 "2".toList ⟨false, false, false⟩,
    .text 2 "8.8.8.8".toList ⟨false, false, false⟩]

/-- The IP is stored. -/
theorem not_authorised_removedMeanwhile :
    ¬∀ s ∈ visited step sample removedMeanwhile, s.Authorised := by
  decide +kernel

end Service
end ConfigManager
