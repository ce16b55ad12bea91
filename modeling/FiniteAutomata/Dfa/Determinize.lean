import FiniteAutomata.Dfa.Indexed
import FiniteAutomata.Dfa.Subset

/-!
Determinization: the subset construction, where the state that stands for a set is looked up in the
index.
-/

namespace FiniteAutomata

namespace Dfa.Indexed

theorem intern_ok {members : StateSet} {a : Nfa} {s t : Indexed} {log : List Event}
    {found : StateId × Bool} (ok : intern members a s = ⟨t, log, .ok found⟩) :
    (∃ q, s.index.lookup members = some q ∧ t = s ∧ found = (q, false)) ∨
      s.index.lookup members = none ∧ found = (s.dfa.size, true) ∧ ∃ state,
        State.ofMembers s.dfa.size members a = .ok state ∧
        t = ⟨{ s.dfa with states := s.dfa.states ++ [state] },
          s.index ++ [(members, s.dfa.size)]⟩ := by
  simp only [intern] at ok
  split at ok
  · rename_i q there
    cases ok
    exact .inl ⟨q, there, rfl, rfl⟩
  · rename_i absent
    split at ok
    · rename_i state made
      cases ok
      exact .inr ⟨absent, rfl, state, made, rfl⟩
    · cases ok

def store : Store Indexed where
  view := dfa
  intern := intern
  addTransition := addTransition
  met s := s.index.map Prod.fst
  intern_known ok := by
    obtain ⟨_, _, rfl, _⟩ | ⟨_, found, _⟩ := intern_ok ok
    · rfl
    · cases found
  intern_new ok := by
    obtain ⟨_, _, _, found⟩ | ⟨absent, _, _, made, rfl⟩ := intern_ok ok
    · cases found
    refine ⟨fun met => ?_, List.map_append, (State.ofMembers_ok made).2.2⟩
    obtain ⟨⟨_, q⟩, listed, rfl⟩ := List.mem_map.mp met
    simpa using List.lookup_eq_none_iff.mp absent _ listed
  addTransition_met ok := by
    obtain ⟨rfl, _⟩ := Outcome.mk.inj ok
    rfl

/-- Fails if the automaton has epsilon transitions. -/
def determinize (a : Nfa) : Outcome Indexed Unit := store.construct a (emptyFor a)

end Dfa.Indexed

/-- What determinization builds, without the index. -/
def Nfa.determinize (a : Nfa) : Outcome Dfa Unit :=
  let built := Dfa.Indexed.determinize a
  ⟨built.final.dfa, built.log, built.result⟩

theorem Dfa.Indexed.determinize_dfa {a : Nfa} {s : Indexed} {log : List Event}
    {r : Except Error Unit} (ran : determinize a = ⟨s, log, r⟩) : a.determinize = ⟨s.dfa, log, r⟩ := by
  rw [Nfa.determinize, ran]

end FiniteAutomata
