import FiniteAutomata.Nfa.Operation
import FiniteAutomata.Proofs.Edits
import Mathlib

/-!
Edits of single states can leave the indices and the list of transitions in any disagreement. What
they cannot do is to list a transition twice, or to index one under another symbol than its own. That
is enough for elimination never to leave an epsilon transition behind in silence: it takes all of
them off the list, and fails if an index still holds one.
-/

namespace FiniteAutomata

namespace Adjacency

/-- Every transition is indexed under its own symbol. -/
def Filed (index : Adjacency) : Prop := ∀ x, ∀ t ∈ index.on x, t.symbol = x

variable {index rest : Adjacency} {t : Transition}

theorem filed_empty : (∅ : Adjacency).Filed := fun _ _ member => (List.not_mem_nil member).elim

theorem Filed.attach (h : index.Filed) (t : Transition) : (index.attach t).Filed := by
  intro x u member
  rw [on_attach] at member
  split at member
  · rename_i here
    rcases List.mem_append.mp member with old | new
    · exact h x u old
    · rw [List.mem_singleton.mp new, here]
  · exact h x u member

theorem mem_on_of_detach (found : index.detach t = some rest) {x : Symbol} {u : Transition}
    (member : u ∈ rest.on x) : u ∈ index.on x := by
  unfold detach at found
  split at found
  · split at found
    · obtain rfl := Option.some.inj found
      rw [on_erase] at member
      split at member
      · cases member
      · exact member
    · obtain rfl := Option.some.inj found
      rw [on_insert] at member
      split at member
      · rename_i here
        rw [here]
        exact List.mem_of_mem_erase member
      · exact member
  · cases found

theorem Filed.detach (h : index.Filed) (found : index.detach t = some rest) : rest.Filed :=
  fun x u member => h x u (mem_on_of_detach found member)

/-- Epsilon transitions are found under the empty word, and nothing else is. -/
theorem Filed.on_epsilon_iff (h : index.Filed) :
    index.on .epsilon = [] ↔ ∀ t ∈ index.edges, !t.isEpsilon := by
  constructor
  · intro none t member
    obtain ⟨x, there⟩ := mem_edges_iff_on.mp member
    cases epsilon : t.isEpsilon with
    | false => rfl
    | true =>
      have label : x = .epsilon := (h x t there).symm.trans (Symbol.isEpsilon_iff.mp epsilon)
      rw [label, none] at there
      cases there
  · intro letters
    refine List.eq_nil_iff_forall_not_mem.mpr fun t there => ?_
    have letter := letters t (mem_edges_of_mem_on there)
    rw [Transition.isEpsilon, h .epsilon t there] at letter
    cases letter

end Adjacency

namespace Nfa

/-! ### One state -/

namespace State

structure Filed (q : State) : Prop where
  outbound : q.outbound.Filed
  inbound : q.inbound.Filed

variable {old new : State}

theorem Filed.removeOutbound {t : Transition} (h : old.Filed) (made : old.removeOutbound t = .ok new) :
    new.Filed := by
  unfold State.removeOutbound at made
  split at made
  · split at made
    · rename_i found
      obtain rfl := Except.ok.inj made
      exact { h with outbound := h.outbound.detach found }
    · cases made
  · cases made

theorem Filed.removeInbound {t : Transition} (h : old.Filed) (made : old.removeInbound t = .ok new) :
    new.Filed := by
  unfold State.removeInbound at made
  split at made
  · split at made
    · rename_i found
      obtain rfl := Except.ok.inj made
      exact { h with inbound := h.inbound.detach found }
    · cases made
  · cases made

theorem Filed.addOutbound {t : Transition} (h : old.Filed) (made : old.addOutbound t = .ok new) :
    new.Filed := by
  rw [addOutbound_ok made]
  exact { h with outbound := h.outbound.attach t }

theorem Filed.addInbound {t : Transition} (h : old.Filed) (made : old.addInbound t = .ok new) :
    new.Filed := by
  rw [addInbound_ok made]
  exact { h with inbound := h.inbound.attach t }

theorem Filed.promote (h : old.Filed) : old.promote.1.Filed := { h with }

theorem Filed.perform {op : Operation} (h : old.Filed) (made : old.perform op = .ok new) :
    new.Filed := by
  cases op with
  | addOutbound t => exact h.addOutbound made
  | addInbound t => exact h.addInbound made
  | removeOutbound t => exact h.removeOutbound made
  | removeInbound t => exact h.removeInbound made
  | promote =>
    obtain rfl := Except.ok.inj made
    exact h.promote

end State

/-! ### What all edits keep -/

/-- No transition is listed twice, and all are indexed under their own symbols. -/
structure Orderly (a : Nfa) : Prop where
  distinct : a.transitions.Nodup
  filed : ∀ q ∈ a.states, q.Filed

theorem orderly_empty : Orderly {} where
  distinct := .nil
  filed _ member := by cases member

variable {a b : Nfa} {t : Transition} {log : List Event}

theorem transitions_editState (q : StateId) (f : State → Except Error State) (a : Nfa) :
    (editState q f a).final.transitions = a.transitions := by
  unfold editState
  split
  · rfl
  · split <;> rfl

theorem keeps_requireState {P : Nfa → Prop} (q : StateId) : Edit.Keeps P (requireState q) := by
  intro a h
  unfold requireState
  split <;> exact h

theorem keeps_addState (name : String) (kind : Kind) : Edit.Keeps Orderly (addState name kind) := by
  intro a h
  unfold addState
  split
  · exact h
  · refine { h with filed := fun q member => ?_ }
    rcases List.mem_append.mp member with old | new
    · exact h.filed q old
    · rw [List.mem_singleton.mp new]
      exact ⟨Adjacency.filed_empty, Adjacency.filed_empty⟩

theorem keeps_addSymbol (x : Symbol) : Edit.Keeps Orderly (addSymbol x) := by
  intro a h
  unfold addSymbol
  split
  · exact { h with }
  · exact h

theorem keeps_addInitial (q : StateId) : Edit.Keeps Orderly (addInitial q) :=
  (keeps_requireState q).bind fun _ => .get fun _ h => { h with }

theorem keeps_editState {q : StateId} {f : State → Except Error State}
    (keeps : ∀ {old new}, old.Filed → f old = .ok new → new.Filed) :
    Edit.Keeps Orderly (editState q f) := by
  intro a h
  refine { distinct := ?_, filed := ?_ }
  · rw [transitions_editState]
    exact h.distinct
  · unfold editState
    split
    · exact h.filed
    rename_i old found
    split
    · rename_i new made
      intro state member
      rcases List.mem_or_eq_of_mem_set member with member | rfl
      · exact h.filed state member
      · exact keeps (h.filed old (List.mem_of_getElem? found)) made
    · exact h.filed

theorem keeps_promote (q : StateId) : Edit.Keeps Orderly (promote q) :=
  .get fun a => (keeps_editState fun h made => by
    obtain rfl := Except.ok.inj made
    exact h.promote).bind (fun _ => .pure (!a.isAccepting q)) a

/-- Orderly, and without one transition. -/
def Lacks (t : Transition) (a : Nfa) : Prop := Orderly a ∧ t ∉ a.transitions

theorem keeps_editState_lacks {q : StateId} {f : State → Except Error State}
    (keeps : ∀ {old new}, old.Filed → f old = .ok new → new.Filed) :
    Edit.Keeps (Lacks t) (editState q f) := by
  intro a h
  refine ⟨keeps_editState keeps a h.1, ?_⟩
  rw [transitions_editState]
  exact h.2

theorem keeps_learn_lacks (x : Symbol) : Edit.Keeps (Lacks t) (learn x) := by
  intro a h
  rw [learn_eq]
  exact ⟨{ h.1 with }, h.2⟩

theorem appendTransition_orderly (t : Transition) :
    Edit.Leads (Lacks t) Orderly (appendTransition t) := by
  intro a h
  obtain ⟨orderly, absent⟩ := h
  exact { orderly with distinct := nodup_concat orderly.distinct absent }

theorem keeps_addTransition (t : Transition) : Edit.Keeps Orderly (addTransition t) := by
  refine (keeps_requireState _).bind fun _ => (keeps_requireState _).bind fun _ => .get fun a h => ?_
  split
  · exact h
  rename_i absent
  -- The transition is listed last of all, so until then every step keeps that it is not there.
  have orderly : ∀ b, Lacks t b → Orderly b := fun _ => And.left
  have ends : Edit.Leads (Lacks t) Orderly (do appendTransition t; return true) :=
    Edit.Leads.bind (appendTransition_orderly t) (fun _ => id) fun _ => Edit.Keeps.pure true
  have enters : Edit.Leads (Lacks t) Orderly
      (do editState t.target (·.addInbound t); appendTransition t; return true) :=
    Edit.Leads.bind (keeps_editState_lacks State.Filed.addInbound) orderly fun _ => ends
  have leaves : Edit.Leads (Lacks t) Orderly
      (do editState t.source (·.addOutbound t); editState t.target (·.addInbound t)
          appendTransition t; return true) :=
    Edit.Leads.bind (keeps_editState_lacks State.Filed.addOutbound) orderly fun _ => enters
  exact Edit.Leads.bind (keeps_learn_lacks t.symbol) orderly (fun _ => leaves) a ⟨h, absent⟩

theorem keeps_removeTransition (t : Transition) : Edit.Keeps Orderly (removeTransition t) := by
  refine .get fun a h => ?_
  split
  · have unlisted : Orderly { a with transitions := a.transitions.erase t } :=
      { h with distinct := h.distinct.erase t }
    exact (keeps_editState State.Filed.removeOutbound).bind
      (fun _ => keeps_editState State.Filed.removeInbound) _ unlisted
  · exact h

/-! ### Elimination -/

theorem keeps_closeInitial : Edit.Keeps Orderly closeInitial := by
  refine .get fun a h => ?_
  show Orderly ((Edit.ofExcept (a.epsilonClosure a.initial) >>= _) a).final
  cases a.epsilonClosure a.initial with
  | error e => exact h
  | ok met => exact { h with }

theorem keeps_addMissing (ts : List Transition) : Edit.Keeps Orderly (addMissing ts) := by
  induction ts with
  | nil => exact .pure []
  | cons t rest ih =>
    exact (keeps_addTransition t).bind fun added => ih.bind fun fresh =>
      .pure (if added then t :: fresh else fresh)

theorem keeps_apply (rule : Rule) (t : Transition) : Edit.Keeps Orderly (rule.apply t) :=
  .get fun a => (keeps_addMissing (rule.unmet a t)).bind (fun _ => .pure _) a

theorem keeps_saturate (rule : Rule) : Edit.Keeps Orderly (saturate rule) :=
  fun _ h => Worklist.run_keeps _ (keeps_apply rule) _ h

theorem keeps_saturateReporting (rule : Rule) (event : Nat → Event) :
    Edit.Keeps Orderly (saturateReporting rule event) :=
  .get fun a => (keeps_saturate rule).bind (fun _ => .get fun _ h => h) a

theorem keeps_inheritAcceptance (ts : List Transition) :
    Edit.Keeps Orderly (inheritAcceptance ts) := by
  induction ts with
  | nil => exact .pure 0
  | cons t rest ih =>
    refine .get fun a h => ?_
    split
    · exact (keeps_promote t.source).bind (fun _ => (Edit.Keeps.report _).bind fun _ =>
        ih.bind fun count => .pure (count + 1)) a h
    · exact ih a h

theorem keeps_promoteAccepting : Edit.Keeps Orderly promoteAccepting :=
  .get fun a => (keeps_inheritAcceptance a.epsilonTransitions).bind (fun _ => .report _) a

theorem keeps_removeAll (ts : List Transition) : Edit.Keeps Orderly (removeAll ts) := by
  induction ts with
  | nil => exact .pure ()
  | cons t rest ih => exact (keeps_removeTransition t).bind fun _ => ih

theorem keeps_discardEpsilon : Edit.Keeps Orderly discardEpsilon :=
  .get fun a => (keeps_removeAll a.epsilonTransitions).bind (fun _ => .report _) a

theorem keeps_verifyEpsilonFree : Edit.Keeps Orderly verifyEpsilonFree := by
  refine .get fun a h => ?_
  cases a.leftover? with
  | none => exact h
  | some t => exact (Edit.Keeps.ofExcept (a.shown? t)).bind (fun _ => .fail _) a h

theorem keeps_eliminateEpsilons : Edit.Keeps Orderly eliminateEpsilons :=
  .get fun _ => ((Edit.Keeps.report _).bind fun _ => keeps_closeInitial.bind fun _ =>
    (keeps_saturateReporting composition .epsilonClosed).bind fun _ =>
    keeps_promoteAccepting.bind fun _ =>
    (keeps_saturateReporting shortcut .shortcutsAdded).bind fun _ =>
    keeps_discardEpsilon.bind fun _ => keeps_verifyEpsilonFree) _

theorem keeps_perform (op : Operation) : Edit.Keeps Orderly (perform op) := by
  cases op with
  | addState name kind => exact (keeps_addState name kind).map
  | addSymbol x => exact (keeps_addSymbol x).map
  | addInitial q => exact (keeps_addInitial q).map
  | addTransition t => exact (keeps_addTransition t).map
  | removeTransition t => exact (keeps_removeTransition t).map
  | promote q => exact (keeps_promote q).map
  | eliminateEpsilons => exact keeps_eliminateEpsilons.map
  | editState q edit => exact (keeps_editState State.Filed.perform).map

theorem Orderly.run {history : List Operation} (h : Orderly a) : Orderly (run a history) := by
  induction history generalizing a with
  | nil => exact h
  | cons op rest ih => exact ih (keeps_perform op a h)

/-! ### After elimination -/

theorem transitions_removeTransition (ok : removeTransition t a = ⟨b, log, .ok ()⟩) :
    b.transitions = a.transitions.erase t := by
  simp only [removeTransition, Edit.bind_ok, Edit.get_ok] at ok
  obtain ⟨_, _, _, _, ⟨rfl, rfl, rfl⟩, ok, _⟩ := ok
  split at ok
  · simp only [Edit.bind_ok, Edit.set_ok] at ok
    obtain ⟨_, _, _, _, ⟨rfl, rfl⟩, ⟨_, _, _, _, left, entered, _⟩, _⟩ := ok
    exact (editState_transitions entered).trans (editState_transitions left)
  · exact (Edit.fail_ok ok).elim

theorem removeAll_leaves {ts : List Transition} (distinct : a.transitions.Nodup)
    (ok : removeAll ts a = ⟨b, log, .ok ()⟩) :
    ∀ u ∈ b.transitions, u ∈ a.transitions ∧ u ∉ ts := by
  induction ts generalizing a log with
  | nil =>
    obtain ⟨rfl, _, _⟩ := Edit.pure_ok.mp ok
    exact fun u listed => ⟨listed, List.not_mem_nil⟩
  | cons t rest ih =>
    simp only [removeAll, Edit.bind_ok] at ok
    obtain ⟨c, _, _, _, removed, later, _⟩ := ok
    have erased := transitions_removeTransition removed
    intro u listed
    obtain ⟨there, other⟩ := ih (erased ▸ distinct.erase t) later u listed
    rw [erased, distinct.mem_erase_iff] at there
    exact ⟨there.2, by simp [there.1, other]⟩

theorem discardEpsilon_leaves (distinct : a.transitions.Nodup)
    (ok : discardEpsilon a = ⟨b, log, .ok ()⟩) : ∀ t ∈ b.transitions, !t.isEpsilon := by
  simp only [discardEpsilon, Edit.bind_ok, Edit.get_ok, Edit.emit, Edit.report_ok] at ok
  obtain ⟨_, _, _, _, ⟨rfl, rfl, rfl⟩, ⟨_, _, _, _, removed, ⟨rfl, _⟩, _⟩, _⟩ := ok
  intro t listed
  obtain ⟨before, removed⟩ := removeAll_leaves distinct removed t listed
  cases epsilon : t.isEpsilon with
  | false => rfl
  | true => exact (removed (List.mem_filter.mpr ⟨before, epsilon⟩)).elim

theorem verifyEpsilonFree_ok (ok : verifyEpsilonFree a = ⟨b, log, .ok ()⟩) :
    b = a ∧ ∀ q ∈ a.states, q.outbound.on .epsilon = [] ∧ q.inbound.on .epsilon = [] := by
  simp only [verifyEpsilonFree, Edit.bind_ok, Edit.get_ok] at ok
  obtain ⟨_, _, a, _, ⟨rfl, rfl, rfl⟩, ok, _⟩ := ok
  cases found : a.leftover? with
  | none =>
    rw [found] at ok
    obtain ⟨rfl, _, _⟩ := Edit.pure_ok.mp ok
    refine ⟨rfl, fun q member => ?_⟩
    have empty := List.head?_eq_none_iff.mp (List.findSome?_eq_none_iff.mp found q member)
    exact List.append_eq_nil_iff.mp empty
  | some t =>
    rw [found] at ok
    obtain ⟨_, _, _, _, _, failed, _⟩ := Edit.bind_ok.mp ok
    exact (Edit.fail_ok failed).elim

/-- No epsilon transition is left, neither listed nor in an index. -/
structure Purged (a : Nfa) : Prop where
  listed : ∀ t ∈ a.transitions, !t.isEpsilon
  outbound : ∀ q ∈ a.states, ∀ t ∈ q.outbound.edges, !t.isEpsilon
  inbound : ∀ q ∈ a.states, ∀ t ∈ q.inbound.edges, !t.isEpsilon

theorem Orderly.purged (h : Orderly a) (ok : Nfa.eliminateEpsilons a = ⟨b, log, .ok ()⟩) :
    Purged b := by
  simp only [Nfa.eliminateEpsilons, Edit.bind_ok, Edit.get_ok, Edit.emit, Edit.report_ok] at ok
  obtain ⟨_, _, _, _, ⟨rfl, rfl, rfl⟩, ⟨_, _, _, _, ⟨rfl, _⟩, ⟨_, _, _, _, closed, ⟨_, _, _, _, composed,
    ⟨_, _, _, _, promoted, ⟨_, _, _, _, shortened, ⟨_, _, _, _, discarded, verified, _⟩, _⟩, _⟩, _⟩, _⟩,
    _⟩, _⟩ := ok
  have h := keeps_closeInitial.final closed h
  have h := (keeps_saturateReporting _ _).final composed h
  have h := keeps_promoteAccepting.final promoted h
  have h := (keeps_saturateReporting _ _).final shortened h
  have listed := discardEpsilon_leaves h.distinct discarded
  have h := keeps_discardEpsilon.final discarded h
  obtain ⟨rfl, empty⟩ := verifyEpsilonFree_ok verified
  exact ⟨listed, fun q member => (h.filed q member).outbound.on_epsilon_iff.mp (empty q member).1,
    fun q member => (h.filed q member).inbound.on_epsilon_iff.mp (empty q member).2⟩

/-- Whatever was done to an automaton and to its single states, elimination that succeeds leaves no
epsilon transition behind. -/
theorem purged_eliminateEpsilons (history : List Operation)
    (ok : (eliminateEpsilons (run {} history)).result = .ok ()) :
    Purged (eliminateEpsilons (run {} history)).final := by
  have orderly : Orderly (run {} history) := orderly_empty.run
  match ran : eliminateEpsilons (run {} history) with
  | ⟨b, log, result⟩ =>
    rw [ran] at ok
    obtain rfl : result = .ok () := ok
    exact orderly.purged ran

/-- An epsilon transition that is listed, and letters in indices only: one that leaves, one that
enters, and one that enters twice. -/
def tampered : List Operation := [
  .addState "p" .ordinary, .addState "q" .accepting, .addInitial 0, .addTransition ⟨0, .epsilon, 1⟩,
  .addTransition ⟨1, .letter "x", 0⟩, .editState 0 (.addInbound ⟨1, .letter "x", 0⟩),
  .editState 0 (.addInbound ⟨1, .letter "y", 0⟩), .editState 1 (.addOutbound ⟨1, .letter "z", 0⟩)]

theorem purged_eliminateEpsilons_tampered :
    (eliminateEpsilons (run {} tampered)).result = .ok () ∧
      Purged (eliminateEpsilons (run {} tampered)).final := by
  have ok : (eliminateEpsilons (run {} tampered)).result = .ok () := by cbv
  exact ⟨ok, purged_eliminateEpsilons tampered ok⟩

end Nfa
end FiniteAutomata
