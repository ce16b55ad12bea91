import FiniteAutomata.Nfa.Basic
import FiniteAutomata.Worklist

/-!
Automata only grow while transitions are added, and not beyond every transition between their
states on the symbols at hand. `missing` counts those that are not there yet.
-/

namespace FiniteAutomata.Nfa

/-- Every symbol on a transition that enters a state is one of the given ones. -/
def EnteredOn (labels : List Symbol) (a : Nfa) : Prop :=
  ∀ q ∈ a.states, ∀ t ∈ q.inbound.edges, t.symbol ∈ labels

/-- The symbols on the transitions that enter a state. -/
def enteringSymbols (a : Nfa) : List Symbol :=
  a.states.flatMap fun q => q.inbound.edges.map (·.symbol)

theorem enteredOn_enteringSymbols (a : Nfa) : EnteredOn a.enteringSymbols a := fun q hq t ht =>
  List.mem_flatMap.mpr ⟨q, hq, List.mem_map.mpr ⟨t, ht, rfl⟩⟩

theorem EnteredOn.mono {labels more : List Symbol} {a : Nfa} (h : EnteredOn labels a)
    (sub : ∀ x ∈ labels, x ∈ more) : EnteredOn more a :=
  fun q hq t ht => sub _ (h q hq t ht)

/-- All transitions on the given symbols between the first `n` states. -/
def allTransitions (n : Nat) (labels : List Symbol) : List Transition :=
  (List.range n).flatMap fun p => (List.range n).flatMap fun q => labels.map fun x => ⟨p, x, q⟩

theorem mem_allTransitions {n : Nat} {labels : List Symbol} {t : Transition} :
    t ∈ allTransitions n labels ↔ t.source < n ∧ t.target < n ∧ t.symbol ∈ labels := by
  obtain ⟨p, x, q⟩ := t
  simp only [allTransitions, List.mem_flatMap, List.mem_range, List.mem_map, Transition.mk.injEq]
  constructor
  · rintro ⟨_, hp, _, hq, _, hx, rfl, rfl, rfl⟩
    exact ⟨hp, hq, hx⟩
  · rintro ⟨hp, hq, hx⟩
    exact ⟨p, hp, q, hq, x, hx, rfl, rfl, rfl⟩

def missing (labels : List Symbol) (a : Nfa) : Nat :=
  (allTransitions a.size labels).countP (· ∉ a.transitions)

/-- A later stage of an automaton to which transitions on the given symbols are added. -/
structure Grown (labels : List Symbol) (a b : Nfa) : Prop where
  size : b.size = a.size
  kept : ∀ t ∈ a.transitions, t ∈ b.transitions
  entered : EnteredOn labels a → EnteredOn labels b

namespace Grown

variable {labels : List Symbol} {a b c : Nfa}

theorem refl : Grown labels a a := ⟨rfl, fun _ h => h, id⟩

theorem trans (h₁ : Grown labels a b) (h₂ : Grown labels b c) : Grown labels a c :=
  ⟨h₂.size.trans h₁.size, fun t h => h₂.kept t (h₁.kept t h), h₂.entered ∘ h₁.entered⟩

/-- Each new transition was missing. -/
theorem missing_add_length_le (h : Grown labels a b) {new : List Transition} (distinct : new.Nodup)
    (added : ∀ t ∈ new, t.source < a.size ∧ t.target < a.size ∧ t.symbol ∈ labels ∧
      t ∉ a.transitions ∧ t ∈ b.transitions) :
    missing labels b + new.length ≤ missing labels a := by
  rw [missing, missing, h.size]
  refine countP_add_length_le (fun t => ?_) distinct fun t member => ?_
  · simp only [decide_eq_true_eq]
    exact fun absent present => absent (h.kept t present)
  · obtain ⟨source, target, label, absent, present⟩ := added t member
    refine ⟨mem_allTransitions.mpr ⟨source, target, label⟩, by simpa using absent, ?_⟩
    simpa using present

end Grown

theorem editState_ok {q : StateId} {f : State → Except Error State} {a b : Nfa}
    {log : List Event} (ok : editState q f a = ⟨b, log, .ok ()⟩) :
    log = [] ∧ ∃ old new, a.states[q]? = some old ∧ f old = .ok new ∧
      b = { a with states := a.states.set q new } := by
  simp only [editState] at ok
  split at ok
  · simp at ok
  · rename_i old found
    split at ok
    · rename_i new made
      simp only [Outcome.mk.injEq, and_true] at ok
      exact ⟨ok.2.symm, old, new, found, made, ok.1.symm⟩
    · simp at ok

theorem editState_grown {labels : List Symbol} {q : StateId} {f : State → Except Error State}
    {a b : Nfa} {log : List Event} (ok : editState q f a = ⟨b, log, .ok ()⟩)
    (entered : ∀ old new, f old = .ok new →
      ∀ t ∈ new.inbound.edges, t ∈ old.inbound.edges ∨ t.symbol ∈ labels) :
    Grown labels a b := by
  obtain ⟨_, old, new, found, made, rfl⟩ := editState_ok ok
  refine ⟨by simp [Nfa.size], fun _ h => h, fun before state member t ht => ?_⟩
  rcases List.mem_or_eq_of_mem_set member with member | rfl
  · exact before state member t ht
  · rcases entered old state made t ht with ht | label
    · exact before old (List.mem_of_getElem? found) t ht
    · exact label

theorem editState_transitions {q : StateId} {f : State → Except Error State} {a b : Nfa}
    {log : List Event} (ok : editState q f a = ⟨b, log, .ok ()⟩) :
    b.transitions = a.transitions := by
  obtain ⟨_, _, _, _, _, rfl⟩ := editState_ok ok
  rfl

theorem addOutbound_ok {t : Transition} {old new : State} (h : old.addOutbound t = .ok new) :
    new = { old with outbound := old.outbound.attach t } := by
  simp only [State.addOutbound] at h
  split at h <;> cases h
  rfl

theorem addInbound_ok {t : Transition} {old new : State} (h : old.addInbound t = .ok new) :
    new = { old with inbound := old.inbound.attach t } := by
  simp only [State.addInbound] at h
  split at h <;> cases h
  rfl

theorem requireState_ok {q : StateId} {a b : Nfa} {log : List Event}
    (ok : requireState q a = ⟨b, log, .ok ()⟩) : q < a.size ∧ b = a ∧ log = [] := by
  simp only [requireState] at ok
  split at ok
  · rename_i h
    simp only [Outcome.mk.injEq, and_true] at ok
    exact ⟨h, ok.1.symm, ok.2.symm⟩
  · simp at ok

theorem learn_ok {x : Symbol} {a b : Nfa} {log : List Event}
    (ok : learn x a = ⟨b, log, .ok ()⟩) :
    log = [] ∧ ∃ alphabet, b = { a with alphabet := alphabet } := by
  simp only [learn] at ok
  split at ok
  · obtain ⟨rfl, rfl, _⟩ := Edit.pure_ok.mp ok
    exact ⟨rfl, _, rfl⟩
  · obtain ⟨_, _, _, _, inserted, rest, rfl⟩ := Edit.bind_ok.mp ok
    obtain ⟨rfl, rfl, _⟩ := Edit.pure_ok.mp rest
    simp only [addSymbol] at inserted
    split at inserted <;> cases inserted
    exact ⟨rfl, _, rfl⟩

theorem appendTransition_ok {t : Transition} {a b : Nfa} {log : List Event}
    (ok : appendTransition t a = ⟨b, log, .ok ()⟩) :
    b = { a with transitions := a.transitions ++ [t] } ∧ log = [.added (b.shown t)] := by
  simp only [appendTransition, Edit.bind_ok, Edit.modify_ok, Edit.get_ok, Edit.emit,
    Edit.report_ok] at ok
  obtain ⟨_, _, _, _, ⟨rfl, rfl⟩, ⟨_, _, _, _, ⟨rfl, rfl, rfl⟩, ⟨rfl, rfl⟩, rfl⟩, rfl⟩ := ok
  exact ⟨rfl, rfl⟩

/-- A call that succeeds changes nothing, or appends a new transition between two states. -/
theorem addTransition_ok {t : Transition} {a b : Nfa} {log : List Event} {added : Bool}
    (ok : addTransition t a = ⟨b, log, .ok added⟩) :
    (t.source < a.size ∧ t.target < a.size) ∧
      (added = false ∧ t ∈ a.transitions ∧ b = a ∧ log = [] ∨
        added = true ∧ t ∉ a.transitions ∧ b.transitions = a.transitions ++ [t] ∧
          log = [.added (b.shown t)] ∧
          ∀ labels, t.symbol ∈ labels → Grown labels a b) := by
  simp only [addTransition, Edit.bind_ok] at ok
  obtain ⟨_, _, _, _, ok₁, ⟨_, _, _, _, ok₂, ⟨_, _, _, _, got, ok, rfl⟩, rfl⟩, rfl⟩ := ok
  obtain ⟨source, rfl, rfl⟩ := requireState_ok ok₁
  obtain ⟨target, rfl, rfl⟩ := requireState_ok ok₂
  obtain ⟨rfl, rfl, rfl⟩ := Edit.get_ok.mp got
  refine ⟨⟨source, target⟩, ?_⟩
  split at ok
  · rename_i present
    obtain ⟨rfl, rfl, rfl⟩ := Edit.pure_ok.mp ok
    exact .inl ⟨rfl, present, rfl, rfl⟩
  · rename_i absent
    simp only [Edit.bind_ok] at ok
    obtain ⟨_, _, _, _, learnt, ⟨_, _, _, _, left, ⟨_, _, _, _, entered,
      ⟨_, _, _, _, appended, done, rfl⟩, rfl⟩, rfl⟩, rfl⟩ := ok
    obtain ⟨rfl, _, rfl⟩ := learn_ok learnt
    obtain ⟨rfl, rfl, rfl⟩ := Edit.pure_ok.mp done
    obtain ⟨rfl, rfl⟩ := appendTransition_ok appended
    obtain rfl := (editState_ok left).1
    obtain rfl := (editState_ok entered).1
    have flat := (editState_transitions entered).trans (editState_transitions left)
    refine .inr ⟨rfl, absent, congrArg (· ++ [t]) flat, rfl, fun labels label => ?_⟩
    have h₁ : Grown labels _ _ := editState_grown left fun old new made u hu => by
      rw [addOutbound_ok made] at hu; exact .inl hu
    have h₂ : Grown labels _ _ := editState_grown entered fun old new made u hu => by
      rw [addInbound_ok made] at hu
      exact (Adjacency.mem_edges_attach hu).elim (fun h => .inr (h ▸ label)) .inl
    have h := Grown.trans ⟨rfl, fun _ h => h, id⟩ (h₁.trans h₂)
    exact ⟨h.size, fun u hu => List.mem_append_left _ (h.kept u hu), h.entered⟩

end FiniteAutomata.Nfa
