import FiniteAutomata.Dfa.Determinize

/-!
An index that is kept along with the states leads where a look at all states leads. So determinization,
which looks sets up in the index, does what the construction does that looks at all states.
-/

namespace FiniteAutomata

namespace Dfa

theorem id_of_find? (d : Dfa) (m : StateSet) : (d.find? m).map State.id =
    ((d.states.map fun q => (q.members, q.id)).find? (·.1 = m)).map Prod.snd := by
  rw [List.find?_map, Option.map_map]
  rfl

namespace Indexed

variable {s : Indexed} {d : Dfa} {a : Nfa} {m : StateSet}

/-- The index leads where a look at all states leads. -/
def Agrees (s : Indexed) : Prop := ∀ m, s.index.lookup m = (s.dfa.find? m).map State.id

theorem agrees_emptyFor (a : Nfa) : Agrees (emptyFor a) := fun _ => rfl

namespace Agrees

theorem of_same (h : Agrees s) (same : (d.states.map fun q => (q.members, q.id)) =
    s.dfa.states.map fun q => (q.members, q.id)) : Agrees { s with dfa := d } := by
  intro m
  rw [id_of_find?, same, ← id_of_find?]
  exact h m

/-- A new state is entered into the index with its number. -/
theorem entering (h : Agrees s) (q : State) :
    Agrees ⟨{ s.dfa with states := s.dfa.states ++ [q] }, s.index ++ [(q.members, q.id)]⟩ := by
  intro m
  have last : [(q.members, q.id)].lookup m = ([q].find? (·.members = m)).map State.id := by
    by_cases same : q.members = m
    · simp [same]
    · simp [same, Ne.symm same]
  rw [find?, List.find?_append, List.lookup_append, h m, last, Option.map_or]
  rfl

end Agrees

/-! ### With the index and without it -/

theorem intern_refines (m : StateSet) (a : Nfa) :
    Edit.Refines dfa Agrees (intern m a) (Dfa.intern m a) where
  same s agrees := by
    have looked := agrees m
    unfold Indexed.intern Dfa.intern
    cases found : s.dfa.find? m with
    | some q =>
      rw [found] at looked
      rw [looked]
      rfl
    | none =>
      rw [found] at looked
      rw [looked]
      cases State.ofMembers s.dfa.size m a <;> rfl
  keeps agrees ok := by
    obtain ⟨_, _, rfl, _⟩ | ⟨_, _, q, made, rfl⟩ := intern_ok ok
    · exact agrees
    · obtain ⟨number, members, _⟩ := State.ofMembers_ok made
      rw [← number, ← members]
      exact agrees.entering q

theorem addTransition_refines (t : Transition) :
    Edit.Refines dfa Agrees (addTransition t) (Dfa.addTransition t) where
  same _ _ := rfl
  keeps {s u log added} agrees ok := by
    obtain ⟨rfl, _, result⟩ := Outcome.mk.inj ok
    have ran : Dfa.addTransition t s.dfa =
        ⟨(Dfa.addTransition t s.dfa).final, (Dfa.addTransition t s.dfa).log, .ok added⟩ := by
      rw [← result]
    exact agrees.of_same (map_states_addTransition _ (fun _ _ _ => rfl) ran)

theorem connect_refines (a : Nfa) (source : StateId) (images : List (Symbol × StateSet)) :
    Edit.Refines dfa Agrees (store.connect a source images) (Dfa.connect a source images) := by
  induction images with
  | nil => exact .pure []
  | cons image rest ih =>
    obtain ⟨x, members⟩ := image
    refine (intern_refines members a).bind fun target => ?_
    refine Edit.Refines.bind (.emitIf fun _ => rfl) fun _ => ?_
    refine (addTransition_refines ⟨source, x, target.1⟩).bind fun added => ?_
    refine Edit.Refines.bind (.emitIf fun _ => rfl) fun _ => ?_
    exact ih.bind fun more => .pure _

theorem expand_refines (a : Nfa) (source : StateId) :
    Edit.Refines dfa Agrees (store.expand a source) (Dfa.expand a source) :=
  .get fun s => connect_refines a source (a.images (s.dfa.members source)).entries

theorem expandAll_refines (a : Nfa) (start : StateId) :
    Edit.Refines dfa Agrees (store.expandAll a start) (Dfa.expandAll a start) where
  same s agrees := Worklist.run_view dfa (Dfa.expansion a) (store.expansion a) (fun _ s => Agrees s)
    (fun agrees => (expand_refines a _).same _ agrees)
    (fun agrees ok => (expand_refines a _).keeps agrees ok) trivial trivial agrees
  keeps {s _ _ _} agrees ok := by
    obtain ⟨rfl, _, result⟩ := Outcome.mk.inj ok
    exact Worklist.run_ok (store.expansion a) (fun agrees ok => (expand_refines a _).keeps agrees ok)
      trivial agrees result

theorem construct_refines (a : Nfa) :
    Edit.Refines dfa Agrees (store.construct a) (Dfa.construct a) := by
  unfold Dfa.construct Store.construct
  split
  · refine (intern_refines a.initial a).bind fun start => ?_
    refine (expandAll_refines a start.1).bind fun _ => ?_
    exact .get fun s => .emit _
  · exact .fail _

/-- The index of what determinization builds can be relied on. -/
theorem agrees_of_determinize {log : List Event} (ran : determinize a = ⟨s, log, .ok ()⟩) : Agrees s :=
  (construct_refines a).keeps (agrees_emptyFor a) ran

end Indexed
end Dfa

namespace Nfa

/-- Determinization goes by the index, and might as well look at all states. -/
theorem determinize_eq (a : Nfa) : a.determinize = Dfa.construct a (Dfa.emptyFor a) :=
  ((Dfa.Indexed.construct_refines a).same _ (Dfa.Indexed.agrees_emptyFor a)).symm

end Nfa
end FiniteAutomata
