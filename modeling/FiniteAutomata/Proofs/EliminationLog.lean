import FiniteAutomata.Proofs.Counters
import FiniteAutomata.Proofs.Log
import FiniteAutomata.Proofs.Naming
import FiniteAutomata.Proofs.Reachable
import Mathlib.Data.Set.Card

/-!
What the log of epsilon elimination tells. Every pass traces what it adds and closes with a summary.
Nothing is traced twice, so the summaries count what has changed between the automaton at the start
and the one at the end.
-/

namespace FiniteAutomata

namespace Lists

variable {α β : Type} {l : List α} {P : α → Prop} {f : α → β}

theorem map (h : Lists l P) (injective : ∀ x y, P x → P y → f x = f y → x = y) :
    Lists (l.map f) fun y => ∃ x, P x ∧ f x = y where
  nodup := h.nodup.map_on fun x hx y hy => injective x y (h.mem_iff.mp hx) (h.mem_iff.mp hy)
  mem_iff := List.mem_map.trans (exists_congr fun _ => and_congr_left' h.mem_iff)

end Lists

namespace Nfa

variable {a b : Nfa}

/-! ### The epsilon relation -/

/-- What the passes of an elimination add, in order. -/
structure Additions where
  initial : List StateId
  composed : List Transition
  accepting : List StateId
  shortcuts : List Transition

namespace Additions

/-- Transitions are shown with the kinds that their states have at the time. -/
def passes (x : Additions) (a b : Nfa) : List Pass := [
  .only (.eliminating a.epsilonTransitions.length a.size) rfl,
  .counting x.initial (fun q => .initialThroughEpsilon (a.nameOf q)) .initialClosed
    (fun _ => rfl) fun _ => rfl,
  .counting x.composed (fun t => .added (a.shown t)) .epsilonClosed (fun _ => rfl) fun _ => rfl,
  .counting x.accepting (fun q => .acceptingThroughEpsilon (a.nameOf q)) .promoted
    (fun _ => rfl) fun _ => rfl,
  .counting x.shortcuts (fun t => .added (b.shown t)) .shortcutsAdded (fun _ => rfl) fun _ => rfl,
  .only (.discarded (a.epsilonTransitions ++ x.composed).length) rfl]

end Additions

/-! ### What elimination reports -/

namespace Additions.Lead

variable {x : Additions}

end Additions.Lead

end Nfa
end FiniteAutomata
