import FiniteAutomata.Proofs.Leftovers
import FiniteAutomata.Proofs.Simulation

/-!
Where there is nothing to eliminate, elimination does nothing: no pass changes anything, whatever
letters the indices hold. Elimination leaves nothing to eliminate, so doing it again is doing nothing.
-/

namespace FiniteAutomata.Nfa

variable {a : Nfa}

/-- What elimination reports when it has nothing to do. -/
def idle (states : Nat) : List Event := [
  .eliminating 0 states, .initialClosed 0, .epsilonClosed 0, .promoted 0, .shortcutsAdded 0,
  .discarded 0]

/-! ### Nothing to do -/

namespace Lettered

theorem epsilonTransitions_eq (h : a.Lettered) : a.epsilonTransitions = [] := by
  refine List.filter_eq_nil_iff.mpr fun t listed epsilon => ?_
  have letter := List.all_eq_true.mp h.listed t listed
  rw [epsilon] at letter
  cases letter

theorem closeInitial (h : a.Lettered) (exist : ∀ q ∈ a.initial, q < a.size) :
    closeInitial a = ⟨a, [.initialClosed 0], .ok ()⟩ := by
  have still : ∀ q ∈ a.initial, a.epsilonGraph[q]? = some [] := by
    intro q member
    obtain ⟨s, found⟩ := exists_state (exist q member)
    rw [epsilonGraph, List.getElem?_map, found, Option.map_some,
      h.outbound s (List.mem_of_getElem? found), List.map_nil]
  have searched : Edit.ofExcept (a.epsilonClosure a.initial) a = ⟨a, [], .ok ⟨a.initial, []⟩⟩ := by
    rw [epsilonClosure, Graph.explore_still still]
    rfl
  exact Edit.bind_of_silent Edit.get_apply (Edit.bind_of_silent searched
    (Edit.bind_of_silent Edit.set_apply rfl))

/-- The queue is empty from the start. -/
theorem saturate (h : a.Lettered) (rule : Rule) : saturate rule a = ⟨a, [], .ok ()⟩ := by
  simp only [Nfa.saturate, h.epsilonTransitions_eq]
  exact Worklist.run_nil _ _

theorem saturateReporting (h : a.Lettered) (rule : Rule) (event : Nat → Event) :
    saturateReporting rule event a = ⟨a, [event 0], .ok ()⟩ := by
  have reported : Edit.emit (event (a.transitions.length - a.transitions.length)) a =
      ⟨a, [event 0], .ok ()⟩ := by
    rw [Nat.sub_self]
    rfl
  exact Edit.bind_of_silent Edit.get_apply (Edit.bind_of_silent (h.saturate rule)
    (Edit.bind_of_silent Edit.get_apply reported))

theorem promoteAccepting (h : a.Lettered) : promoteAccepting a = ⟨a, [.promoted 0], .ok ()⟩ := by
  refine Edit.bind_of_silent Edit.get_apply ?_
  rw [h.epsilonTransitions_eq]
  rfl

theorem discardEpsilon (h : a.Lettered) : discardEpsilon a = ⟨a, [.discarded 0], .ok ()⟩ := by
  refine Edit.bind_of_silent Edit.get_apply ?_
  rw [h.epsilonTransitions_eq]
  rfl

theorem eliminateEpsilons (h : a.Lettered) (exist : ∀ q ∈ a.initial, q < a.size) :
    eliminateEpsilons a = ⟨a, idle a.size, .ok ()⟩ := by
  have ran := eliminateEpsilons_of_passes (h.closeInitial exist) (h.saturateReporting _ _)
    h.promoteAccepting (h.saturateReporting _ _) h.discardEpsilon h
  rw [h.epsilonTransitions_eq] at ran
  exact ran

end Lettered

/-! ### Nothing left to do -/

theorem Orderly.lettered (h : Orderly a) (purged : Purged a) : a.Lettered where
  listed := List.all_eq_true.mpr purged.listed
  outbound q member := (h.filed q member).outbound.on_epsilon_iff.mpr (purged.outbound q member)
  inbound q member := (h.filed q member).inbound.on_epsilon_iff.mpr (purged.inbound q member)

/-- Elimination that is done again changes nothing. Nor does it where nothing is listed or indexed
under the empty word, in any automaton whose initial states exist; whatever was done to an automaton
and to its single states, that is where neither the list nor an index holds an epsilon transition. -/
theorem eliminateEpsilons_idempotent :
    (∀ a, Reachable a → ∃ b log, eliminateEpsilons a = ⟨b, log, .ok ()⟩ ∧
      eliminateEpsilons b = ⟨b, idle b.size, .ok ()⟩) ∧
    (∀ a : Nfa, a.Lettered → (∀ q ∈ a.initial, q < a.size) →
      eliminateEpsilons a = ⟨a, idle a.size, .ok ()⟩) ∧
    ∀ history, Purged (run {} history) →
      (∀ q ∈ (run {} history).initial, q < (run {} history).size) →
      eliminateEpsilons (run {} history) = ⟨run {} history, idle (run {} history).size, .ok ()⟩ := by
  refine ⟨fun a reachable => ?_, fun a => Lettered.eliminateEpsilons, fun history purged => ?_⟩
  · obtain ⟨b, log, ran, wellFormed, eliminates⟩ := reachable.wellFormed.eliminateEpsilons
    have free := List.all_eq_true.mp eliminates.isEpsilonFree
    exact ⟨b, log, ran, (wellFormed.lettered free).eliminateEpsilons wellFormed.starts⟩
  · have orderly : Orderly (run {} history) := orderly_empty.run
    exact (orderly.lettered purged).eliminateEpsilons

/-- No epsilon transition, but letters in indices only, one of them twice. -/
def smudged : List Operation := [
  .addState "p" .ordinary, .addState "q" .accepting, .addInitial 0, .addInitial 1,
  .addTransition ⟨1, .letter "x", 0⟩, .editState 0 (.addInbound ⟨1, .letter "x", 0⟩),
  .editState 0 (.addInbound ⟨7, .letter "y", 0⟩), .editState 1 (.addOutbound ⟨1, .letter "z", 9⟩)]

theorem eliminateEpsilons_idempotent_detour :
    (∃ b log, eliminateEpsilons (run {} detour) = ⟨b, log, .ok ()⟩ ∧
      eliminateEpsilons b = ⟨b, idle b.size, .ok ()⟩) ∧
    eliminateEpsilons (run {} fork) = ⟨run {} fork, idle 3, .ok ()⟩ ∧
    eliminateEpsilons (run {} smudged) = ⟨run {} smudged, idle 2, .ok ()⟩ := by
  obtain ⟨again, still, tampered⟩ := eliminateEpsilons_idempotent
  have lettered : (run {} fork).Lettered := ⟨by decide, by decide, by decide⟩
  have purged : Purged (run {} smudged) := ⟨by decide, by decide, by decide⟩
  exact ⟨again _ ⟨detour, by decide, rfl⟩, still _ lettered (by decide),
    tampered smudged purged (by decide)⟩

end FiniteAutomata.Nfa
