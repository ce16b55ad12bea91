import FiniteAutomata.Counted
import FiniteAutomata.Proofs.Passes

/-!
Saturation counts exactly what it adds. Each transition is counted when it is added, however often
the same one is called for and however often an item returns to the queue, so the count is the
difference between the numbers of transitions before and after.
-/

namespace FiniteAutomata

namespace Nfa.Counted

variable {s t : Tally Nfa} {log : List Event}

theorem tallied_ok {m : Edit Nfa Bool} {added : Bool}
    (ok : Edit.tallied m s = ⟨t, log, .ok added⟩) :
    t.count = if added then s.count + 1 else s.count := by
  obtain ⟨rfl, _, result⟩ := Outcome.mk.inj ok
  simp only [result]
  cases added <;> rfl

theorem addMissing_count {ts fresh : List Transition} (ok : addMissing ts s = ⟨t, log, .ok fresh⟩) :
    t.count = s.count + fresh.length := by
  induction ts generalizing s t log fresh with
  | nil =>
    obtain ⟨rfl, _, rfl⟩ := Edit.pure_ok.mp ok
    rfl
  | cons u rest ih =>
    simp only [addMissing, Edit.bind_ok, Edit.pure_ok] at ok
    obtain ⟨mid, _, added, _, first, ⟨_, _, later, _, more, ⟨rfl, _, rfl⟩, _⟩, _⟩ := ok
    have count := tallied_ok first
    have rest := ih more
    cases added with
    | false => exact rest.trans (congrArg (· + later.length) count)
    | true =>
      rw [rest, count, if_pos rfl, if_pos rfl, List.length_cons]
      exact Nat.add_right_comm s.count 1 later.length

/-- The count has grown with the number of transitions. -/
def Exact (n : Nat) (s : Tally Nfa) : Prop := s.value.transitions.length = n + s.count

theorem exact_apply {n : Nat} {rule : Rule} {u : Transition} {more : List Transition}
    (before : Exact n s) (ok : apply rule u s = ⟨t, log, .ok more⟩) : Exact n t := by
  obtain ⟨fresh, added, _⟩ := apply_ok ok
  obtain ⟨grown, _⟩ := Nfa.addMissing_ok ((addMissing_counts _).ok trivial added)
  have count := addMissing_count added
  unfold Exact at before ⊢
  rw [grown, List.length_append, count, before, Nat.add_assoc]

/-! ### What is met already makes no difference -/

variable {a : Nfa}

/-- Transitions that are listed already can be left out. -/
theorem addMissing_filter (h : WellFormed a) {ts : List Transition} {p : Transition → Bool}
    (ends : ∀ t ∈ ts, t.source < a.size ∧ t.target < a.size)
    (met : ∀ t ∈ ts, ¬ p t → t ∈ a.transitions) :
    Nfa.addMissing (ts.filter p) a = Nfa.addMissing ts a := by
  induction ts generalizing a with
  | nil => rfl
  | cons t rest ih =>
    have later := fun u member => ends u (List.mem_cons_of_mem t member)
    have metLater := fun u member => met u (List.mem_cons_of_mem t member)
    by_cases passes : p t
    · obtain ⟨b, log, added, first, same⟩ : ∃ b log added, addTransition t a = ⟨b, log, .ok added⟩ ∧
          Nfa.addMissing (rest.filter p) b = Nfa.addMissing rest b := by
        by_cases listed : t ∈ a.transitions
        · exact ⟨a, [], false, addTransition_present h listed, ih h later metLater⟩
        · obtain ⟨source, target⟩ := ends t List.mem_cons_self
          refine ⟨_, _, true, addTransition_absent h source target listed,
            ih (h.including source target listed) (size_including a t ▸ later) ?_⟩
          exact fun u member fails => List.mem_append_left _ (metLater u member fails)
      rw [List.filter_cons_of_pos passes]
      exact Edit.bind_congr first rfl (by rw [Edit.bind_apply, Edit.bind_apply, same])
    · have listed : t ∈ a.transitions := met t List.mem_cons_self passes
      have rest_only : (Nfa.addMissing rest >>= pure) a = Nfa.addMissing rest a := by rw [bind_pure]
      rw [List.filter_cons_of_neg passes, ih h later metLater]
      exact (Edit.bind_of_silent (addTransition_present h listed) rest_only).symm

theorem apply_agrees {rule : Rule} {kind : Symbol → Bool} {u : Transition}
    {rest added : List Transition} (carries : rule.Carries kind)
    (h : Saturating a kind (u :: rest) added) (here : s.value = a.includingAll added) :
    rule.apply u s.value =
      ⟨(apply rule u s).final.value, (apply rule u s).log, (apply rule u s).result⟩ := by
  have tried : Nfa.addMissing (rule.unmet s.value u) s.value =
      Nfa.addMissing (rule.calls s.value u) s.value := by
    rw [here]
    refine addMissing_filter h.wellFormed (h.call_ends carries) fun t _ met => ?_
    have near : t ∈ (a.includingAll added).transitions ∧ t.target = u.target := by simpa using met
    exact near.1
  have counts := (addMissing_counts (rule.calls s.value u)).bind fun fresh =>
    .pure (if fresh.isEmpty then [] else fresh.filter Transition.isEpsilon ++ [u])
  refine Eq.trans ?_ (counts.same s trivial)
  show (Nfa.addMissing (rule.unmet s.value u) >>= _) s.value = _
  rw [Edit.bind_apply, Edit.bind_apply, tried]

theorem saturateReporting_eq {rule : Rule} {kind : Symbol → Bool} {event : Nat → Event}
    (carries : rule.Carries kind) (h : WellFormed a) :
    saturateReporting rule event a = Nfa.saturateReporting rule event a := by
  let done := (worklist rule (.epsilon :: a.enteringSymbols)).run a.epsilonTransitions ⟨a, 0⟩
    (saturate_ready rule a)
  have same : Nfa.saturate rule a = ⟨done.final.value, done.log, done.result⟩ :=
    Worklist.run_view Tally.value _ _
      (fun queue s => ∃ added, s.value = a.includingAll added ∧ Saturating a kind queue added)
      (fun {u rest s} waiting => by
        obtain ⟨added, here, saturating⟩ := waiting
        exact apply_agrees carries saturating here)
      (fun {u rest s t log more} waiting (ok : apply rule u s = _) => by
        obtain ⟨added, here, saturating⟩ := waiting
        obtain ⟨fresh, more', applied, next⟩ := saturating.step carries
        have agrees := apply_agrees carries saturating here
        rw [here, applied, ok] at agrees
        obtain ⟨value, _, result⟩ := Outcome.mk.inj agrees
        obtain rfl := Except.ok.inj result
        exact ⟨added ++ fresh, value.symm, next⟩)
      _ (saturate_ready rule a) ⟨[], rfl, .start h kind⟩
  obtain ⟨_, ran, _⟩ := saturate_succeeds carries h
  have result : done.result = .ok () := (Outcome.mk.inj (same.symm.trans ran)).2.2
  have tallied : saturate rule a = ⟨done.final.value, done.log, .ok done.final.count⟩ := by
    show (⟨done.final.value, done.log, done.result.map fun _ => done.final.count⟩ : Outcome _ _) = _
    rw [result]
    rfl
  have exact : Exact a.transitions.length done.final :=
    Worklist.run_ok (P := Exact a.transitions.length) _ (fun before ok => exact_apply before ok)
      (saturate_ready rule a) rfl result
  rw [result] at same
  have compares : Nfa.saturateReporting rule event a = ⟨done.final.value, done.log ++
      [event (done.final.value.transitions.length - a.transitions.length)], .ok ()⟩ :=
    Edit.bind_of_silent Edit.get_apply (Edit.bind_of_ok same
      (Edit.bind_of_silent Edit.get_apply rfl))
  rw [compares, exact, Nat.add_sub_cancel_left]
  exact Edit.bind_of_ok tallied rfl

theorem eliminateEpsilons_eq (h : WellFormed a) :
    eliminateEpsilons a = Nfa.eliminateEpsilons a := by
  obtain ⟨_, _, closes, h₁, _⟩ := closeInitial_succeeds h
  obtain ⟨_, composes, s⟩ := saturateReporting_succeeds composition_carries h₁
  obtain ⟨_, _, promotes, inherits, _⟩ := promoteAccepting_succeeds s.wellFormed
  obtain ⟨_, shortens, _⟩ := saturateReporting_succeeds shortcut_carries inherits.wellFormed
  refine Edit.bind_congr Edit.get_apply rfl (Edit.bind_congr rfl rfl ?_)
  refine Edit.bind_congr closes rfl ?_
  refine Edit.bind_congr composes (saturateReporting_eq composition_carries h₁) ?_
  refine Edit.bind_congr promotes rfl ?_
  exact Edit.bind_congr shortens (saturateReporting_eq shortcut_carries inherits.wellFormed) rfl

end Nfa.Counted
end FiniteAutomata
