import FiniteAutomata.Dfa.Basic

/-!
Automata as text: a line with the states, then one line for each transition.
-/

namespace FiniteAutomata

namespace Text

def listing (states transitions : List String) : String :=
  "---------- STATES ----------\n" ++ " ".intercalate states ++
  "\n---------TRANSITION---------\n" ++ String.join (transitions.map (· ++ "\n")) ++
  "----------------------------\n"

end Text

/-- Transitions are sorted by source, symbol and target. -/
def Nfa.listing (a : Nfa) : String :=
  Text.listing (a.states.map Nfa.State.shown) (a.sortedTransitions.map a.shown)

/-- Transitions stay in the order in which they were added. -/
def Dfa.listing (d : Dfa) : String :=
  Text.listing (d.states.map Dfa.State.shown) (d.transitions.map d.shown)

end FiniteAutomata
