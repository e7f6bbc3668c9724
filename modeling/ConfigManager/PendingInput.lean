import ConfigManager.BotHandlers
import ConfigManager.Runs

/-! # Which handler a typed message goes to

A `Chat` is the bot and the `user_data` of one user, with the prompt that user
pressed last.  The user presses buttons and types texts in any order.

A prompt sets its own flag and leaves those of earlier prompts set; of all the
other buttons only the way back to the main menu clears them.  So two prompts in a
row leave two flags, the text goes to whichever comes first in `textFlags`, and the
other stays for the text after it.  If every prompt is pressed with no other input
pending, the pending input is the one asked for last (`Chat.Inv`); otherwise two
flags are set at once: `asksLast_iff`.
-/
namespace ConfigManager

open Py Runs

/-- One user's chat with the bot. -/
structure Chat where
  bot : Bot
  userData : UserData
  /-- The flag of the prompt button pressed last. -/
  lastPrompt : Option Flag

namespace Chat

/-- What the user can do. -/
inductive Event where
  | press (button : Button)
  | text (message : Str)

/-- A chat in which nothing was pressed. -/
def new (b : Bot) : Chat := ⟨b, .empty, none⟩

/-- The handlers at work for a user. -/
def step (userId : Int) (s : Chat) : Event → Option Chat
  | .press button =>
      let r := callbackRouter s.bot s.userData userId button
      some ⟨r.1, r.2, (promptOf s.bot userId button).or s.lastPrompt⟩
  | .text message =>
      let r := messageRouter s.bot s.userData userId message
      some ⟨r.1, r.2, s.lastPrompt⟩

/-- A flag is that of the prompt pressed last, or of the question its handler asks
in turn. -/
def OfLast (s : Chat) (f : Flag) : Prop :=
  s.lastPrompt = some f ∨
    f = .awaitingIpCount ∧ s.lastPrompt = some .awaitingConfigCount

/-- **A typed message goes to the action asked for last.** -/
structure AsksLast (userId : Int) (s : Chat) : Prop where
  /-- At most one flag is set. -/
  onePending : s.userData.flags.card ≤ 1
  /-- The handler that takes a text is that of the prompt pressed last. -/
  consumed : ∀ f, consumer s.userData = some f → s.OfLast f
  /-- A text is broadcast to all users only if that was the last prompt. -/
  broadcast : ∀ message,
    (messageRouter s.bot s.userData userId message).1.broadcasts ≠ s.bot.broadcasts →
      s.lastPrompt = some .broadcastMode

/-- A prompt is pressed with no other input pending. -/
def NothingElsePending (userId : Int) (s : Chat) : Event → Prop
  | .press button => ∀ f ∈ promptOf s.bot userId button, s.userData.flags ⊆ {f}
  | .text _ => True

/-- The pending input, if there is one, is that of the prompt pressed last. -/
structure Inv (s : Chat) : Prop where
  one : s.userData.flags.card ≤ 1
  last : ∀ f ∈ s.userData.flags, s.OfLast f

variable {userId : Int} {s t : Chat}

/-! ## Steps -/

theorem inv_new (b : Bot) : (new b).Inv := ⟨by simp [new], by simp [new]⟩

/-- A handler that takes a text broadcasts it only under `broadcast_mode`. -/
theorem consumer_of_broadcast {message : Str}
    (h : (messageRouter s.bot s.userData userId message).1.broadcasts ≠ s.bot.broadcasts) :
    consumer s.userData = some .broadcastMode := by
  unfold messageRouter at h
  split at h
  next f hf =>
    by_contra hne
    exact h (broadcasts_takeText fun hb => hne (hb ▸ hf))
  · exact absurd rfl h

theorem asksLast_of_inv (hs : s.Inv) : s.AsksLast userId where
  onePending := hs.one
  consumed f hf := hs.last f (consumer_mem hf)
  broadcast message hm := by
    rcases hs.last _ (consumer_mem (consumer_of_broadcast hm)) with h | ⟨h, -⟩
    · exact h
    · cases h

/-- A prompt with nothing else pending leaves its own flag pending. -/
theorem inv_press {button : Button} (hs : s.Inv) (hc : NothingElsePending userId s (.press button))
    (h : step userId s (.press button) = some t) : t.Inv := by
  cases h
  cases hp : promptOf s.bot userId button with
  | some f =>
      have hflags : insert f s.userData.flags = {f} :=
        Finset.Subset.antisymm (Finset.insert_subset_iff.mpr ⟨by simp, hc f hp⟩) (by simp)
      constructor
      · simp [callbackRouter_prompt hp, hflags]
      · intro g hg
        rw [callbackRouter_prompt hp, flags_set, hflags, Finset.mem_singleton] at hg
        exact .inl (by simp [hg])
  | none =>
      have hflags := flags_callbackRouter (d := s.userData) hp
      constructor
      · rw [hflags]
        split
        · simp
        · exact hs.one
      · intro g hg
        rw [hflags] at hg
        split at hg
        · simp at hg
        · exact hs.last g hg

/-- The handler that takes the one pending input leaves none, or its own question. -/
theorem inv_text {message : Str} (hs : s.Inv) (h : step userId s (.text message) = some t) :
    t.Inv := by
  cases h
  unfold messageRouter
  split
  next f hf =>
    have hmem := consumer_mem hf
    have hone : s.userData.flags = {f} :=
      (Finset.eq_of_subset_of_card_le (by simpa using hmem) (by simpa using hs.one)).symm
    have hpop : (s.userData.pop f).flags = ∅ := by simp [hone]
    rcases flags_takeText s.bot (s.userData.pop f) userId
      (strip message) f with h | ⟨rfl, h⟩
    · rw [hpop] at h
      constructor <;> simp [h]
    · rw [hpop, insert_empty_eq] at h
      have hlast : s.lastPrompt = some .awaitingConfigCount := by
        rcases hs.last _ hmem with h | ⟨h, -⟩
        · exact h
        · cases h
      constructor
      · simp [h]
      · intro g hg
        rw [h, Finset.mem_singleton] at hg
        exact .inr ⟨hg, hlast⟩
  · exact hs

theorem inv_step {e : Event} (hs : s.Inv) (hc : NothingElsePending userId s e)
    (h : step userId s e = some t) : t.Inv := by
  cases e with
  | press button => exact inv_press hs hc h
  | text message => exact inv_text hs h

/-- A prompt pressed while another input is pending leaves two flags set. -/
theorem not_asksLast_of_pending {e : Event} (hc : ¬NothingElsePending userId s e)
    (h : step userId s e = some t) : ¬t.AsksLast userId := by
  rintro ⟨hone, -, -⟩
  cases e with
  | text message => exact hc trivial
  | press button =>
      cases h
      simp only [NothingElsePending, not_forall] at hc
      obtain ⟨f, hp, hsub⟩ := hc
      obtain ⟨g, hg, hgf⟩ := Finset.not_subset.mp hsub
      rw [callbackRouter_prompt hp, flags_set, Finset.card_le_one] at hone
      exact hgf (Finset.mem_singleton.mpr
        (hone g (Finset.mem_insert_of_mem hg) f (Finset.mem_insert_self ..)))

/-! ## Runs -/

/-- Every button can be pressed and every text typed. -/
theorem isRun (s : Chat) (events : List Event) : IsRun (step userId) s events := by
  induction events generalizing s with
  | nil => rfl
  | cons e events ih => cases e <;> exact ih _

/-- **Exactly the histories in which a message goes to the action asked for last**:
those in which every prompt is pressed with no other input pending. -/
theorem asksLast_iff (b : Bot) (userId : Int) (events : List Event) :
    (∀ s ∈ visited (step userId) (new b) events, s.AsksLast userId) ↔
      Meets (step userId) (NothingElsePending userId) (new b) events :=
  safe_iff_meets (fun _ => asksLast_of_inv) (fun _ _ _ => inv_step)
    (fun _ _ _ _ => not_asksLast_of_pending) (inv_new b) (isRun _ _)

/-- A bot with its owner and one other user. -/
def sampleBot : Bot := ⟨1, ∅, ∅, [1, 2], [], [], true, [], []⟩

/-- The owner starts a broadcast, thinks better of it, and goes to upload a file. -/
def changedMind : List Event := [.press .adminBroadcast, .press .cleanIpMenu, .press .ipFile]

/-- The next text would be broadcast. -/
theorem not_asksLast_changedMind :
    ¬∀ s ∈ visited (step 1) (new sampleBot) changedMind, s.AsksLast 1 := by
  intro h
  have hrun : run (step 1) (new sampleBot) changedMind = some ⟨sampleBot,
      (UserData.empty.set .broadcastMode).set .awaitingCleanIp, some .awaitingCleanIp⟩ := rfl
  exact absurd (h _ (mem_visited_last hrun)).onePending (by decide)

example : (run (step 1) (new sampleBot) (changedMind ++ [.text "8.8.8.8".toList])).map
    (·.bot.broadcasts) = some [("8.8.8.8".toList, [1, 2])] := by decide

end Chat
end ConfigManager
