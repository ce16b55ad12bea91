import FiniteAutomata.Proofs.WellFormed

/-!
What the edits make of a well-formed automaton, in closed form. Every edit succeeds or leaves the
automaton as it was, and its result is well-formed again.
-/

namespace FiniteAutomata

/-- Letters that are in use become known, the empty word does not. -/
def Alphabet.learn (a : Alphabet) (x : Symbol) : Alphabet :=
  if x = .epsilon ∨ x ∈ a.letters then a else { letters := a.letters ++ [x] }

theorem Alphabet.learn_of_known {a : Alphabet} {x : Symbol} (known : x ≠ .epsilon → x ∈ a.letters) :
    a.learn x = a := by
  rw [learn, if_pos]
  by_cases h : x = .epsilon
  · exact .inl h
  · exact .inr (known h)

theorem Alphabet.insert_letter {a : Alphabet} {x : Symbol} (letter : x ≠ .epsilon) :
    a.insert x = .ok (a.learn x, decide (x ∉ a.letters)) := by
  by_cases known : x ∈ a.letters
  · simp [insert, learn, letter, known]
  · simp [insert, learn, letter, known]

theorem Alphabet.letters_learn (a : Alphabet) (x : Symbol) :
    (a.learn x).letters = if x = .epsilon then a.letters else enlist a.letters x := by
  by_cases epsilon : x = .epsilon
  · rw [learn, if_pos (.inl epsilon), if_pos epsilon]
  · by_cases known : x ∈ a.letters
    · rw [learn, if_pos (.inr known), if_neg epsilon, enlist, if_pos known]
    · rw [learn, if_neg (not_or.mpr ⟨epsilon, known⟩), if_neg epsilon, enlist, if_neg known]

theorem Alphabet.mem_learn {a : Alphabet} {x y : Symbol} :
    y ∈ (a.learn x).letters ↔ y ∈ a.letters ∨ y = x ∧ x ≠ .epsilon := by
  rw [letters_learn]
  split
  · rename_i epsilon
    simp [epsilon]
  · rename_i letter
    rw [mem_enlist]
    simp [letter]

theorem Alphabet.nodup_learn {a : Alphabet} {x : Symbol} (h : a.letters.Nodup) :
    (a.learn x).letters.Nodup := by
  rw [learn]
  split
  · exact h
  · rename_i fresh
    exact nodup_concat h (not_or.mp fresh).2

namespace Nfa

namespace State

def attachOutbound (t : Transition) (q : State) : State :=
  { q with outbound := if t.source = q.id then q.outbound.attach t else q.outbound }

def attachInbound (t : Transition) (q : State) : State :=
  { q with inbound := if t.target = q.id then q.inbound.attach t else q.inbound }

def detachOutbound (t : Transition) (q : State) : State :=
  { q with
    outbound := if t.source = q.id then (q.outbound.detach t).getD q.outbound else q.outbound }

def detachInbound (t : Transition) (q : State) : State :=
  { q with
    inbound := if t.target = q.id then (q.inbound.detach t).getD q.inbound else q.inbound }

variable {q : State} {listed : List Transition} {t : Transition}

/-- A transition that is attached at both ends joins the end of the list. -/
theorem Mirrors.attach (h : q.Mirrors listed) (t : Transition) :
    ((q.attachOutbound t).attachInbound t).Mirrors (listed ++ [t]) where
  outbound := by
    show Adjacency.Lists (if t.source = q.id then q.outbound.attach t else q.outbound) _ _
    split
    · rename_i here
      exact h.outbound.attach (decide_eq_true here)
    · rename_i other
      exact h.outbound.append_other (by simpa using other)
  inbound := by
    show Adjacency.Lists (if t.target = q.id then q.inbound.attach t else q.inbound) _ _
    split
    · rename_i here
      exact h.inbound.attach (decide_eq_true here)
    · rename_i other
      exact h.inbound.append_other (by simpa using other)

theorem Mirrors.detach (h : q.Mirrors listed) (member : t ∈ listed) :
    ((q.detachOutbound t).detachInbound t).Mirrors (listed.erase t) where
  outbound := by
    show Adjacency.Lists
      (if t.source = q.id then (q.outbound.detach t).getD q.outbound else q.outbound) _ _
    split
    · rename_i here
      obtain ⟨rest, found, lists⟩ := h.outbound.detach member (decide_eq_true here)
      rw [found]
      exact lists
    · rename_i other
      exact h.outbound.erase_other (by simpa using other)
  inbound := by
    show Adjacency.Lists
      (if t.target = q.id then (q.inbound.detach t).getD q.inbound else q.inbound) _ _
    split
    · rename_i here
      obtain ⟨rest, found, lists⟩ := h.inbound.detach member (decide_eq_true here)
      rw [found]
      exact lists
    · rename_i other
      exact h.inbound.erase_other (by simpa using other)

theorem mirrors_fresh {i : StateId} {name : String} {kind : Kind}
    (untouched : ∀ t ∈ listed, t.source ≠ i ∧ t.target ≠ i) :
    Mirrors { id := i, name := name, kind := kind } listed where
  outbound := .empty fun t member here => (untouched t member).1 (of_decide_eq_true here)
  inbound := .empty fun t member here => (untouched t member).2 (of_decide_eq_true here)

end State

/-! ### One state at a time -/

section
variable {a : Nfa} {q : StateId}

theorem editState_map {f : State → Except Error State} {g : State → State}
    (numbered : Numbered State.id a.states) (exist : q < a.size)
    (here : ∀ s, s ∈ a.states → s.id = q → f s = .ok (g s))
    (elsewhere : ∀ s, s.id ≠ q → g s = s) :
    editState q f a = ⟨{ a with states := a.states.map g }, [], .ok ()⟩ := by
  obtain ⟨old, found⟩ := exists_state exist
  have edited := here old (List.mem_of_getElem? found) (numbered q old found)
  simp only [editState, found, edited, numbered.set_eq_map found elsewhere]

theorem requireState_of_lt (exist : q < a.size) : requireState q a = ⟨a, [], .ok ()⟩ := by
  rw [requireState, if_pos exist]

theorem requireState_of_not_lt (missing : ¬ q < a.size) :
    requireState q a = ⟨a, [], .error (.unknownState (numbered q))⟩ := by
  rw [requireState, if_neg missing]

/-! ### States, letters and starts -/

/-- With one more state, which has no transitions. -/
def enlarged (a : Nfa) (name : String) (kind : Kind) : Nfa :=
  { a with states := a.states ++ [{ id := a.size, name := name, kind := kind }] }

theorem addState_taken {name : String} (taken : name ∈ a.states.map State.name) (kind : Kind) :
    addState name kind a = ⟨a, [], .error (.duplicateState name)⟩ := by
  obtain ⟨s, member, same⟩ := List.mem_map.mp taken
  rw [addState, if_pos (List.any_eq_true.mpr ⟨s, member, decide_eq_true same⟩)]

theorem addState_free {name : String} (free : name ∉ a.states.map State.name) (kind : Kind) :
    addState name kind a = ⟨a.enlarged name kind, [], .ok a.size⟩ := by
  rw [addState, if_neg]
  · rfl
  · intro found
    obtain ⟨s, member, same⟩ := List.any_eq_true.mp found
    exact free (List.mem_map.mpr ⟨s, member, of_decide_eq_true same⟩)

theorem addSymbol_epsilon (a : Nfa) : addSymbol .epsilon a = ⟨a, [], .error .epsilonInAlphabet⟩ := rfl

theorem addSymbol_letter {x : Symbol} (letter : x ≠ .epsilon) :
    addSymbol x a =
      ⟨{ a with alphabet := a.alphabet.learn x }, [], .ok (decide (x ∉ a.alphabet.letters))⟩ := by
  rw [addSymbol, Alphabet.insert_letter letter]

theorem addInitial_of_lt (exist : q < a.size) : addInitial q a =
    ⟨{ a with initial := a.initial.insert q }, [], .ok (decide (q ∉ a.initial))⟩ :=
  Edit.bind_of_silent (requireState_of_lt exist) (Edit.bind_of_silent Edit.get_apply
    (Edit.bind_of_silent Edit.set_apply Edit.pure_apply))

theorem addInitial_of_not_lt (missing : ¬ q < a.size) :
    addInitial q a = ⟨a, [], .error (.unknownState (numbered q))⟩ :=
  Edit.bind_of_error (requireState_of_not_lt missing)

/-! ### Added transitions -/

/-- With one more transition. -/
def including (a : Nfa) (t : Transition) : Nfa :=
  { a with
    states := a.states.map fun q => (q.attachOutbound t).attachInbound t
    alphabet := a.alphabet.learn t.symbol
    transitions := a.transitions ++ [t] }

theorem bare_including (a : Nfa) (t : Transition) : (a.including t).bare = a.bare := by
  unfold bare including
  rw [List.map_map]
  rfl

theorem size_including (a : Nfa) (t : Transition) : (a.including t).size = a.size :=
  size_of_bare (bare_including a t)

theorem WellFormed.including {t : Transition} (h : WellFormed a) (source : t.source < a.size)
    (target : t.target < a.size) (absent : t ∉ a.transitions) : WellFormed (a.including t) where
  numbered := h.numbered.map fun _ => rfl
  names := by
    show ((a.states.map fun q => (q.attachOutbound t).attachInbound t).map State.name).Nodup
    rw [List.map_map]
    exact h.names
  mirrored q member := by
    obtain ⟨old, there, rfl⟩ := List.mem_map.mp member
    exact (h.mirrored old there).attach t
  distinct := nodup_concat h.distinct absent
  ends u member := by
    rw [size_including]
    rcases List.mem_append.mp member with old | fresh
    · exact h.ends u old
    · rw [List.mem_singleton.mp fresh]
      exact ⟨source, target⟩
  starts q member := by
    rw [size_including]
    exact h.starts q member
  letters := Alphabet.nodup_learn h.letters
  proper member := by
    rcases Alphabet.mem_learn.mp member with old | ⟨same, letter⟩
    · exact h.proper old
    · exact letter same.symm
  known u member letter := by
    refine Alphabet.mem_learn.mpr ?_
    rcases List.mem_append.mp member with old | fresh
    · exact .inl (h.known u old letter)
    · rw [List.mem_singleton.mp fresh] at letter ⊢
      exact .inr ⟨rfl, letter⟩

theorem learn_eq (a : Nfa) (x : Symbol) :
    learn x a = ⟨{ a with alphabet := a.alphabet.learn x }, [], .ok ()⟩ := by
  unfold learn
  by_cases epsilon : x = .epsilon
  · rw [if_pos (Symbol.isEpsilon_iff.mpr epsilon),
      Alphabet.learn_of_known fun letter => absurd epsilon letter]
    rfl
  · rw [if_neg (fun h => epsilon (Symbol.isEpsilon_iff.mp h))]
    exact Edit.bind_of_silent (addSymbol_letter epsilon) Edit.pure_apply

theorem addTransition_no_source {t : Transition} (missing : ¬ t.source < a.size) :
    addTransition t a = ⟨a, [], .error (.unknownState (numbered t.source))⟩ :=
  Edit.bind_of_error (requireState_of_not_lt missing)

theorem addTransition_no_target {t : Transition} (source : t.source < a.size)
    (missing : ¬ t.target < a.size) :
    addTransition t a = ⟨a, [], .error (.unknownState (numbered t.target))⟩ :=
  Edit.bind_of_silent (requireState_of_lt source)
    (Edit.bind_of_error (requireState_of_not_lt missing))

theorem addTransition_present {t : Transition} (h : WellFormed a) (member : t ∈ a.transitions) :
    addTransition t a = ⟨a, [], .ok false⟩ := by
  obtain ⟨source, target⟩ := h.ends t member
  refine Edit.bind_of_silent (requireState_of_lt source)
    (Edit.bind_of_silent (requireState_of_lt target) (Edit.bind_of_silent Edit.get_apply ?_))
  rw [if_pos member]
  rfl

theorem addTransition_absent {t : Transition} (h : WellFormed a) (source : t.source < a.size)
    (target : t.target < a.size) (absent : t ∉ a.transitions) :
    addTransition t a = ⟨a.including t, [.added (a.shown t)], .ok true⟩ := by
  let known : Nfa := { a with alphabet := a.alphabet.learn t.symbol }
  let left : Nfa := { known with states := known.states.map (State.attachOutbound t) }
  have leave : editState t.source (·.addOutbound t) known = ⟨left, [], .ok ()⟩ := by
    refine editState_map h.numbered source (fun s _ here => ?_) fun s other => ?_
    · simp only [State.addOutbound, State.attachOutbound, here, if_true]
    · simp only [State.attachOutbound, if_neg (Ne.symm other)]
  have entered : editState t.target (·.addInbound t) left =
      ⟨{ left with states := left.states.map (State.attachInbound t) }, [], .ok ()⟩ := by
    refine editState_map (h.numbered.map fun _ => rfl) ?_ (fun s _ here => ?_) fun s other => ?_
    · simpa only [size, left, known, List.length_map] using target
    · simp only [State.addInbound, State.attachInbound, here, if_true]
    · simp only [State.attachInbound, if_neg (Ne.symm other)]
  have appended : appendTransition t { left with states := left.states.map (State.attachInbound t) } =
      ⟨a.including t, [.added (a.shown t)], .ok ()⟩ := by
    rw [← shown_of_bare (bare_including a t)]
    have states : left.states.map (State.attachInbound t) = (a.including t).states :=
      List.map_map
    rw [states]
    rfl
  refine Edit.bind_of_silent (requireState_of_lt source)
    (Edit.bind_of_silent (requireState_of_lt target) (Edit.bind_of_silent Edit.get_apply ?_))
  rw [if_neg absent]
  exact Edit.bind_of_silent (learn_eq a t.symbol) (Edit.bind_of_silent leave
    (Edit.bind_of_silent entered (Edit.bind_of_ok appended Edit.pure_apply)))

/-! ### Removed transitions -/

/-- With one transition less. -/
def excluding (a : Nfa) (t : Transition) : Nfa :=
  { a with
    states := a.states.map fun q => (q.detachOutbound t).detachInbound t
    transitions := a.transitions.erase t }

theorem bare_excluding (a : Nfa) (t : Transition) : (a.excluding t).bare = a.bare := by
  unfold bare excluding
  rw [List.map_map]
  rfl

theorem size_excluding (a : Nfa) (t : Transition) : (a.excluding t).size = a.size :=
  size_of_bare (bare_excluding a t)

theorem WellFormed.excluding {t : Transition} (h : WellFormed a) (member : t ∈ a.transitions) :
    WellFormed (a.excluding t) where
  numbered := h.numbered.map fun _ => rfl
  names := by
    show ((a.states.map fun q => (q.detachOutbound t).detachInbound t).map State.name).Nodup
    rw [List.map_map]
    exact h.names
  mirrored q there := by
    obtain ⟨old, before, rfl⟩ := List.mem_map.mp there
    exact (h.mirrored old before).detach member
  distinct := h.distinct.erase t
  ends u there := by
    rw [size_excluding]
    exact h.ends u (List.mem_of_mem_erase there)
  starts q there := by
    rw [size_excluding]
    exact h.starts q there
  letters := h.letters
  proper := h.proper
  known u there := h.known u (List.mem_of_mem_erase there)

theorem removeTransition_present {t : Transition} (h : WellFormed a) (member : t ∈ a.transitions) :
    removeTransition t a = ⟨a.excluding t, [], .ok ()⟩ := by
  obtain ⟨source, target⟩ := h.ends t member
  let unlisted : Nfa := { a with transitions := a.transitions.erase t }
  let left : Nfa := { unlisted with states := unlisted.states.map (State.detachOutbound t) }
  have leave : editState t.source (·.removeOutbound t) unlisted = ⟨left, [], .ok ()⟩ := by
    refine editState_map h.numbered source (fun s there here => ?_) fun s other => ?_
    · obtain ⟨rest, found, _⟩ :=
        (h.mirrored s there).outbound.detach member (decide_eq_true here.symm)
      simp only [State.removeOutbound, State.detachOutbound, here, if_true, found, Option.getD_some]
    · simp only [State.detachOutbound, if_neg (Ne.symm other)]
  have gone : editState t.target (·.removeInbound t) left = ⟨a.excluding t, [], .ok ()⟩ := by
    have states : left.states.map (State.detachInbound t) = (a.excluding t).states := List.map_map
    have edited : editState t.target (·.removeInbound t) left =
        ⟨{ left with states := left.states.map (State.detachInbound t) }, [], .ok ()⟩ := by
      refine editState_map (h.numbered.map fun _ => rfl) ?_ (fun s there here => ?_) fun s other => ?_
      · simpa only [size, left, unlisted, List.length_map] using target
      · obtain ⟨old, before, rfl⟩ := List.mem_map.mp there
        obtain ⟨rest, found, _⟩ :=
          (h.mirrored old before).inbound.detach member (decide_eq_true here.symm)
        have found : (old.detachOutbound t).inbound.detach t = some rest := found
        simp only [State.removeInbound, State.detachInbound, here, if_true, found, Option.getD_some]
      · simp only [State.detachInbound, if_neg (Ne.symm other)]
    rw [edited, states]
    rfl
  refine Edit.bind_of_silent Edit.get_apply ?_
  rw [if_pos member]
  exact Edit.bind_of_silent Edit.set_apply (Edit.bind_of_silent leave gone)

theorem removeTransition_absent {t : Transition} (absent : t ∉ a.transitions) :
    removeTransition t a = ⟨a, [], .error (.notRecorded (a.nameOf t.source) t.text)⟩ := by
  refine Edit.bind_of_silent Edit.get_apply ?_
  rw [if_neg absent]
  rfl

/-! ### Kinds -/

/-- With one state that accepts. -/
def promoting (a : Nfa) (q : StateId) : Nfa :=
  { a with states := a.states.map fun s => if s.id = q then s.promote.1 else s }

theorem WellFormed.of_states {g : State → State} (h : WellFormed a)
    (ids : ∀ s, (g s).id = s.id) (names : ∀ s, (g s).name = s.name)
    (outbound : ∀ s, (g s).outbound = s.outbound) (inbound : ∀ s, (g s).inbound = s.inbound) :
    WellFormed { a with states := a.states.map g } where
  numbered := h.numbered.map ids
  names := by
    show ((a.states.map g).map State.name).Nodup
    rw [List.map_map, show State.name ∘ g = State.name from funext names]
    exact h.names
  mirrored q there := by
    obtain ⟨old, before, rfl⟩ := List.mem_map.mp there
    have mirrors := h.mirrored old before
    constructor
    · rw [outbound, ids]; exact mirrors.outbound
    · rw [inbound, ids]; exact mirrors.inbound
  distinct := h.distinct
  ends t member := by
    simpa only [size, List.length_map] using h.ends t member
  starts q member := by
    simpa only [size, List.length_map] using h.starts q member
  letters := h.letters
  proper := h.proper
  known := h.known

theorem WellFormed.promoting (h : WellFormed a) (q : StateId) : WellFormed (a.promoting q) := by
  refine h.of_states (fun s => ?_) (fun s => ?_) (fun s => ?_) fun s => ?_
  all_goals split <;> rfl

theorem promote_eq (h : WellFormed a) (exist : q < a.size) :
    promote q a = ⟨a.promoting q, [], .ok (!a.isAccepting q)⟩ := by
  have edited : editState q (fun s => .ok s.promote.1) a = ⟨a.promoting q, [], .ok ()⟩ := by
    refine editState_map h.numbered exist (fun s _ here => ?_) fun s other => ?_
    · rw [if_pos here]
    · rw [if_neg other]
  exact Edit.bind_of_silent Edit.get_apply (Edit.bind_of_silent edited Edit.pure_apply)

theorem promote_missing (missing : ¬ q < a.size) :
    promote q a = ⟨a, [], .error (.outOfRange q)⟩ := by
  have none : a.states[q]? = none := List.getElem?_eq_none_iff.mpr (Nat.not_lt.mp missing)
  have failed : editState q (fun s => .ok s.promote.1) a = ⟨a, [], .error (.outOfRange q)⟩ := by
    simp only [editState, none]
  exact Edit.bind_of_silent Edit.get_apply (Edit.bind_of_error failed)

end

end Nfa
end FiniteAutomata
