import FiniteAutomata.Event
import Mathlib.Data.List.Basic

/-!
How logs are read: by the kind of the messages, or stretch by stretch from one summary to the next. A
log that passes have written one after another falls apart into their traces and their summaries.
-/

namespace FiniteAutomata

namespace Event

/-- The transition that a message says was added. -/
def added? : Event → Option String
  | added t => some t
  | _ => none

/-- The state that a message says was discovered. -/
def discovered? : Event → Option String
  | discovered q => some q
  | _ => none

/-- How much a message matters, and what it says. -/
def message (e : Event) : Level × String := (e.level, e.text)

theorem message_of_added? {e : Event} {t : String} (told : e.added? = some t) :
    e.message = (.trace, "added transition " ++ t) := by
  cases e with
  | added t =>
    cases told
    rfl
  | _ => cases told

theorem message_of_discovered? {e : Event} {q : String} (told : e.discovered? = some q) :
    e.message = (.trace, "discovered superstate " ++ q) := by
  cases e with
  | discovered q =>
    cases told
    rfl
  | _ => cases told

end Event

/-- What a pass reports: traces, and a summary of them. -/
structure Pass where
  traces : List Event
  summary : Event
  traced : ∀ e ∈ traces, e.level = .trace
  summarized : summary.level = .debug

namespace Pass

def log (p : Pass) : List Event := p.traces ++ [p.summary]

/-- Traces every item and tells how many there are. -/
def counting {α : Type} (items : List α) (trace : α → Event) (summary : Nat → Event)
    (traced : ∀ x, (trace x).level = .trace) (summarized : ∀ n, (summary n).level = .debug) :
    Pass where
  traces := items.map trace
  summary := summary items.length
  traced e member := by
    obtain ⟨x, _, rfl⟩ := List.mem_map.mp member
    exact traced x
  summarized := summarized items.length

def only (summary : Event) (summarized : summary.level = .debug) : Pass where
  traces := []
  summary := summary
  traced _ member := (List.not_mem_nil member).elim
  summarized := summarized

end Pass

end FiniteAutomata
