import FiniteAutomata.Proofs.Reachable

/-!
What the views show of an automaton after any history of regular operations. The list of transitions
is the authority: each index repeats the part of it that touches its state, in the order of the list.
-/

namespace FiniteAutomata.Nfa

variable {a : Nfa}

namespace WellFormed

/-- A look-up in the index of the source finds exactly what is listed. -/
theorem hasTransition_eq (h : WellFormed a) {t : Transition} (exist : t.source < a.size) :
    a.hasTransition t = .ok (decide (t ∈ a.transitions)) := by
  obtain ⟨state, found⟩ := exists_state exist
  have indexed : state.outbound.on t.symbol = a.outboundOn t.source t.symbol := by
    unfold outboundOn
    rw [found]
  have looked : a.hasTransition t =
      .ok ((a.outboundOn t.source t.symbol).any (·.target = t.target)) := by
    unfold hasTransition Nfa.state
    rw [found, ← indexed]
    rfl
  rw [looked]
  apply congrArg Except.ok
  rw [Bool.eq_iff_iff, List.any_eq_true, decide_eq_true_eq]
  constructor
  · intro either
    obtain ⟨u, member, same⟩ := either
    obtain ⟨listed, source, symbol⟩ := h.mem_outboundOn.mp member
    have target := of_decide_eq_true same
    obtain ⟨p, x, q⟩ := u
    subst source symbol target
    exact listed
  · intro listed
    exact ⟨t, h.mem_outboundOn.mpr ⟨listed, rfl, rfl⟩, decide_eq_true rfl⟩

end WellFormed

/-- A well-formed automaton by its views. -/
structure Represented (a : Nfa) : Prop extends WellFormed a where
  outboundOn_eq : ∀ q x, a.outboundOn q x = a.transitions.filter fun t => t.source = q ∧ t.symbol = x
  inboundOn_eq : ∀ q x, a.inboundOn q x = a.transitions.filter fun t => t.target = q ∧ t.symbol = x
  tight : ∀ q ∈ a.states, q.outbound.Tight ∧ q.inbound.Tight
  hasTransition_eq : ∀ p < a.size, ∀ x q,
    a.hasTransition ⟨p, x, q⟩ = .ok (decide (⟨p, x, q⟩ ∈ a.transitions))

/-- Whatever regular operations did, and whether they failed, all views agree. -/
theorem Reachable.represented (h : Reachable a) : a.Represented where
  toWellFormed := h.wellFormed
  outboundOn_eq := h.wellFormed.outboundOn_eq
  inboundOn_eq := h.wellFormed.inboundOn_eq
  tight q member := by
    have mirrors := h.wellFormed.mirrored q member
    exact ⟨mirrors.outbound.tight, mirrors.inbound.tight⟩
  hasTransition_eq p exist x q := h.wellFormed.hasTransition_eq exist

/-- A self loop, a transition that is removed again from the middle of the list, and calls that
fail. -/
def rework : List Operation := [
  .addState "p" .ordinary, .addState "q" .accepting, .addState "p" .accepting, .addInitial 0,
  .addInitial 7, .addSymbol .epsilon, .addTransition ⟨0, .letter "x", 0⟩,
  .addTransition ⟨0, .letter "x", 1⟩, .addTransition ⟨0, .epsilon, 1⟩,
  .addTransition ⟨0, .letter "y", 9⟩, .addTransition ⟨1, .letter "x", 0⟩,
  .removeTransition ⟨0, .letter "x", 1⟩, .removeTransition ⟨0, .letter "x", 1⟩, .promote 5,
  .eliminateEpsilons, .addTransition ⟨1, .epsilon, 1⟩]

theorem represented_rework : (run {} rework).Represented :=
  Reachable.represented ⟨rework, by decide, rfl⟩

end FiniteAutomata.Nfa
