import Pictor.Construction.Serving.Streaming
import Pictor.Library.Transitions

namespace Pictor.ContextWindow
open Transitions List

/-- One strategy keeps the front of a conversation, the others keep its end. -/
def Part (strategy : TruncationStrategy) (part whole : List UInt32) : Prop :=
  match strategy with
  | .truncateRight => part <+: whole
  | _ => part <:+ whole

/-- The longest part of a conversation that fits. -/
structure Longest (strategy : TruncationStrategy) (limit : Nat) (whole part : List UInt32) : Prop where
  within : Part strategy part whole
  fits : part.length ≤ limit
  longest : ∀ other, Part strategy other whole → other.length ≤ limit → other.length ≤ part.length

/-- A conversation holds a number of the tokens that were added last. The strategy that drops the newest tokens keeps
new ones only behind all the old ones, the others keep old ones only before all the new ones. -/
def HoldsNew (strategy : TruncationStrategy) (old new after : List UInt32) (count : Nat) : Prop :=
  ∃ oldPart newPart, after = oldPart ++ newPart ∧ newPart.length = count ∧
    Part strategy oldPart old ∧ Part strategy newPart new ∧
    match strategy with
    | .truncateRight => newPart = [] ∨ oldPart = old
    | _ => oldPart = [] ∨ newPart = new

def Bounded (window : ContextWindow) : Prop :=
  window.systemTokens.length + window.conversation.length ≤ window.maxTokens

/-- What a call has to do with a window. -/
structure Lawful (window : ContextWindow) (call : Call) : Prop where
  bounded : (window.perform call).Bounded
  settings : (window.perform call).maxTokens = window.maxTokens ∧ (window.perform call).strategy = window.strategy
  setSystemPrompt : ∀ tokens, call = .setSystemPrompt tokens →
    (∀ error, (window.setSystemPrompt tokens).1 = .error error → (window.setSystemPrompt tokens).2 = window) ∧
    ((window.setSystemPrompt tokens).1 = .ok () → (window.setSystemPrompt tokens).2.systemTokens = tokens ∧
      Longest window.strategy (window.maxTokens - tokens.length) window.conversation
        (window.setSystemPrompt tokens).2.conversation)
  append : ∀ tokens, call = .append tokens → (window.append tokens).2.systemTokens = window.systemTokens ∧
    Longest window.strategy (window.maxTokens - window.systemTokens.length) (window.conversation ++ tokens)
      (window.append tokens).2.conversation ∧
    HoldsNew window.strategy window.conversation tokens (window.append tokens).2.conversation (window.append tokens).1
  truncateToFit : call = .truncateToFit → window.truncateToFit.2.systemTokens = window.systemTokens ∧
    Longest window.strategy (window.maxTokens - window.systemTokens.length) window.conversation
      window.truncateToFit.2.conversation
  clearConversation : call = .clearConversation → window.clearConversation = { window with conversation := [] }

/-- No old tokens are dropped to make room for the new ones. -/
def DropsNothingOld (window : ContextWindow) (call : Call) : Prop :=
  ∀ tokens, call = .append tokens → window.strategy = .truncateRight ∨ window.conversation = [] ∨
    window.systemTokens.length + window.conversation.length + tokens.length ≤ window.maxTokens

section Truncation

variable (window : ContextWindow)

/-- The conversation is cut to the capacity, on the side of the strategy. -/
theorem truncateToFit_eq : window.truncateToFit = (window.conversation.length - window.capacityForConv,
    { window with conversation :=
        if window.strategy = .truncateRight then window.conversation.take window.capacityForConv
        else window.conversation.drop (window.conversation.length - window.capacityForConv) }) := by
  unfold truncateToFit
  by_cases fits : window.conversation.length ≤ window.capacityForConv
  · rw [if_pos fits, Nat.sub_eq_zero_of_le fits, take_of_length_le fits, drop_zero, ite_self]
  · have rest : window.conversation.length - (window.conversation.length - window.capacityForConv) =
        window.capacityForConv := by omega
    rw [if_neg fits]
    simp only [rest]
    cases window.strategy <;> rfl

@[simp] theorem truncateToFit_systemTokens : window.truncateToFit.2.systemTokens = window.systemTokens := by
  rw [truncateToFit_eq]

@[simp] theorem truncateToFit_maxTokens : window.truncateToFit.2.maxTokens = window.maxTokens := by
  rw [truncateToFit_eq]

@[simp] theorem truncateToFit_strategy : window.truncateToFit.2.strategy = window.strategy := by
  rw [truncateToFit_eq]

theorem truncateToFit_length :
    window.truncateToFit.2.conversation.length = min window.capacityForConv window.conversation.length := by
  rw [truncateToFit_eq]
  by_cases right : window.strategy = .truncateRight
  · simp only [right, if_true]
    exact length_take
  · simp only [right, if_false]
    rw [length_drop]
    omega

theorem truncateToFit_longest : Longest window.strategy window.capacityForConv window.conversation
    window.truncateToFit.2.conversation := by
  constructor
  · rw [truncateToFit_eq]
    cases window.strategy with
    | truncateRight => exact List.take_prefix _ _
    | truncateLeft => exact drop_suffix _ _
    | slidingWindow => exact drop_suffix _ _
    | summarize => exact drop_suffix _ _
  · rw [truncateToFit_length]
    exact Nat.min_le_left _ _
  · intro other part fits
    rw [truncateToFit_length]
    have within : other.length ≤ window.conversation.length := by
      cases chosen : window.strategy with
      | truncateRight =>
          rw [chosen] at part
          exact List.IsPrefix.length_le part
      | truncateLeft =>
          rw [chosen] at part
          exact List.IsSuffix.length_le part
      | slidingWindow =>
          rw [chosen] at part
          exact List.IsSuffix.length_le part
      | summarize =>
          rw [chosen] at part
          exact List.IsSuffix.length_le part
    omega

/-- The system prompt alone fits, so the truncated window does. -/
theorem truncateToFit_bounded (system : window.systemTokens.length ≤ window.maxTokens) :
    window.truncateToFit.2.Bounded := by
  have length := window.truncateToFit_length
  rw [capacityForConv] at length
  rw [Bounded, truncateToFit_systemTokens, truncateToFit_maxTokens]
  omega

end Truncation

section HoldsNew

variable {strategy : TruncationStrategy} {old new : List UInt32} {capacity count : Nat}

/-- The front that is kept holds the new tokens that fit behind the old ones. -/
theorem holdsNew_take : HoldsNew .truncateRight old new ((old ++ new).take capacity) count ↔
    count = min (capacity - old.length) new.length := by
  constructor
  · intro ⟨oldPart, newPart, parts, counted, oldWithin, newWithin, whole⟩
    have lengths := congrArg List.length parts
    rw [length_take, length_append, length_append] at lengths
    have oldLength := List.IsPrefix.length_le oldWithin
    have newLength := List.IsPrefix.length_le newWithin
    rcases whole with rfl | rfl
    · rw [length_nil] at lengths counted
      omega
    · omega
  · intro counted
    refine ⟨old.take capacity, new.take (capacity - old.length), take_append, ?_, List.take_prefix _ _,
      List.take_prefix _ _, ?_⟩
    · rw [length_take, counted]
    · by_cases fits : capacity ≤ old.length
      · rw [Nat.sub_eq_zero_of_le fits, take_zero]
        exact Or.inl rfl
      · exact Or.inr (take_of_length_le (Nat.le_of_not_le fits))

/-- The end that is kept holds the new tokens that fit. -/
theorem holdsNew_drop (left : strategy ≠ .truncateRight) :
    HoldsNew strategy old new ((old ++ new).drop ((old ++ new).length - capacity)) count ↔
      count = min capacity new.length := by
  have cases : HoldsNew strategy old new ((old ++ new).drop ((old ++ new).length - capacity)) count ↔
      ∃ oldPart newPart, (old ++ new).drop ((old ++ new).length - capacity) = oldPart ++ newPart ∧
        newPart.length = count ∧ oldPart <:+ old ∧ newPart <:+ new ∧ (oldPart = [] ∨ newPart = new) := by
    cases strategy with
    | truncateRight => exact absurd rfl left
    | truncateLeft => exact Iff.rfl
    | slidingWindow => exact Iff.rfl
    | summarize => exact Iff.rfl
  rw [cases, length_append]
  constructor
  · intro ⟨oldPart, newPart, parts, counted, oldWithin, newWithin, whole⟩
    have lengths := congrArg List.length parts
    rw [length_drop, length_append, length_append] at lengths
    have oldLength := List.IsSuffix.length_le oldWithin
    have newLength := List.IsSuffix.length_le newWithin
    rcases whole with rfl | rfl
    · rw [length_nil] at lengths
      omega
    · omega
  · intro counted
    refine ⟨old.drop (old.length + new.length - capacity), new.drop (new.length - capacity), ?_, ?_,
      drop_suffix _ _, drop_suffix _ _, ?_⟩
    · rw [drop_append]
      congr 2
      omega
    · rw [length_drop, counted]
      omega
    · by_cases fits : new.length ≤ capacity
      · rw [Nat.sub_eq_zero_of_le fits]
        exact Or.inr rfl
      · refine Or.inl (drop_eq_nil_of_le ?_)
        omega

end HoldsNew

variable {window : ContextWindow}

/-- The answer to an append is the number of new tokens exactly if no old ones are dropped. -/
theorem append_holdsNew_iff (bounded : window.Bounded) (tokens : List UInt32) :
    HoldsNew window.strategy window.conversation tokens (window.append tokens).2.conversation
        (window.append tokens).1 ↔ window.strategy = .truncateRight ∨ window.conversation = [] ∨
        window.systemTokens.length + window.conversation.length + tokens.length ≤ window.maxTokens := by
  rw [append, truncateToFit_eq, Bounded] at *
  simp only [capacityForConv]
  by_cases right : window.strategy = .truncateRight
  · rw [if_pos right, right]
    refine iff_of_true (holdsNew_take.mpr ?_) (Or.inl rfl)
    rw [length_append]
    omega
  · rw [if_neg right, holdsNew_drop right, or_iff_right right, ← length_eq_zero_iff, length_append]
    omega

theorem perform_bounded (bounded : window.Bounded) (call : Call) : (window.perform call).Bounded := by
  have system : window.systemTokens.length ≤ window.maxTokens := by
    rw [Bounded] at bounded
    omega
  cases call with
  | setSystemPrompt tokens =>
      change (window.setSystemPrompt tokens).2.Bounded
      rw [setSystemPrompt]
      by_cases large : tokens.length > window.maxTokens
      · rw [if_pos large]
        exact bounded
      · rw [if_neg large]
        exact truncateToFit_bounded _ (Nat.le_of_not_lt large)
  | append tokens => exact truncateToFit_bounded { window with conversation := window.conversation ++ tokens } system
  | truncateToFit => exact truncateToFit_bounded window system
  | clearConversation => exact system

theorem perform_settings (call : Call) :
    (window.perform call).maxTokens = window.maxTokens ∧ (window.perform call).strategy = window.strategy := by
  cases call with
  | setSystemPrompt tokens =>
      change (window.setSystemPrompt tokens).2.maxTokens = _ ∧ (window.setSystemPrompt tokens).2.strategy = _
      rw [setSystemPrompt]
      by_cases large : tokens.length > window.maxTokens
      · rw [if_pos large]
        exact ⟨rfl, rfl⟩
      · rw [if_neg large]
        exact ⟨truncateToFit_maxTokens _, truncateToFit_strategy _⟩
  | append tokens => exact ⟨truncateToFit_maxTokens _, truncateToFit_strategy _⟩
  | truncateToFit => exact ⟨truncateToFit_maxTokens _, truncateToFit_strategy _⟩
  | clearConversation => exact ⟨rfl, rfl⟩

/-- A call is lawful exactly if it drops no old tokens to make room for new ones. -/
theorem lawful_iff (bounded : window.Bounded) (call : Call) : window.Lawful call ↔ window.DropsNothingOld call := by
  constructor
  · intro lawful tokens appends
    exact (append_holdsNew_iff bounded tokens).mp (lawful.append tokens appends).2.2
  · intro drops
    refine ⟨perform_bounded bounded call, perform_settings call, ?_, ?_, ?_, ?_⟩
    · intro tokens _
      rw [ContextWindow.setSystemPrompt]
      by_cases large : tokens.length > window.maxTokens
      · rw [if_pos large]
        exact ⟨fun _ _ => rfl, nofun⟩
      · rw [if_neg large]
        exact ⟨nofun, fun _ => ⟨truncateToFit_systemTokens _,
          truncateToFit_longest { window with systemTokens := tokens }⟩⟩
    · intro tokens appends
      exact ⟨truncateToFit_systemTokens _,
        truncateToFit_longest { window with conversation := window.conversation ++ tokens },
        (append_holdsNew_iff bounded tokens).mpr (drops tokens appends)⟩
    · intro _
      exact ⟨truncateToFit_systemTokens _, truncateToFit_longest window⟩
    · intro _
      rfl

/-- All calls of a history are lawful if and only if none of them drops old tokens to make room for new ones. -/
theorem history_lawful_iff (maxTokens : Nat) (strategy : TruncationStrategy) (calls : List Call) :
    Meets (total perform) Lawful (new maxTokens strategy) calls ↔
      Meets (total perform) DropsNothingOld (new maxTokens strategy) calls :=
  meets_iff_meets (fun _ call bounded => lawful_iff bounded call)
    (fun _ call bounded _ => perform_bounded bounded call) (Nat.zero_le _)

/-- Five tokens that fill the window are followed by two: both are kept, and the answer is that none is. -/
theorem append_counts_none :
    ¬ Meets (total perform) Lawful (new 5 .truncateLeft) [.append [1, 2, 3, 4, 5], .append [6, 7]] ∧
      ((new 5 .truncateLeft).append [1, 2, 3, 4, 5]).2.append [6, 7] = (0, ⟨5, [], [3, 4, 5, 6, 7], .truncateLeft⟩) := by
  refine ⟨fun lawful => ?_, by decide⟩
  obtain ⟨_, second, _⟩ := (meets_total.trans (and_congr_right fun _ => meets_total)).mp lawful
  obtain ⟨oldPart, newPart, parts, counted, _, _, whole⟩ := (second.append [6, 7] rfl).2.2
  have none : newPart = [] := length_eq_zero_iff.mp counted
  rw [none, append_nil] at parts
  rcases whole with rfl | kept
  · cases parts
  · rw [none] at kept
    cases kept

end Pictor.ContextWindow
