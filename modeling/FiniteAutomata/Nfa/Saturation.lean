import FiniteAutomata.Nfa.Growth

/-!
Saturation under a rule. The rule says which transitions an epsilon transition calls for; those
that are missing are added until none is. What is added can make further calls, so the added
epsilon transitions join the queue, and the one that called for them returns to its end.
-/

namespace FiniteAutomata.Nfa

/-- Adds transitions in order and returns those that are new. -/
def addMissing : List Transition → Edit Nfa (List Transition)
  | [] => pure []
  | t :: rest => do
    let added ← addTransition t
    let fresh ← addMissing rest
    return if added then t :: fresh else fresh

structure Rule where
  calls : Nfa → Transition → List Transition
  aimed : ∀ {a t u}, u ∈ calls a t → u.target = t.target
  /-- No symbol is made up. -/
  labelled : ∀ {labels a t u}, .epsilon ∈ labels → EnteredOn labels a → u ∈ calls a t →
    u.symbol ∈ labels

/-- The calls that are not met yet. Only transitions to the same target can meet them. -/
def Rule.unmet (rule : Rule) (a : Nfa) (t : Transition) : List Transition :=
  let near := a.transitions.filter (·.target = t.target)
  (rule.calls a t).filter (· ∉ near)

theorem Rule.mem_unmet {rule : Rule} {a : Nfa} {t u : Transition} :
    u ∈ rule.unmet a t ↔ u ∈ rule.calls a t ∧ u ∉ a.transitions := by
  simp only [unmet, List.mem_filter, decide_eq_true_eq, not_and]
  constructor
  · rintro ⟨called, absent⟩
    exact ⟨called, fun h => absent h (rule.aimed called)⟩
  · rintro ⟨called, absent⟩
    exact ⟨called, fun h => absurd h absent⟩

def Rule.apply (rule : Rule) (t : Transition) : Edit Nfa (List Transition) := do
  let fresh ← addMissing (rule.unmet (← Edit.get) t)
  return if fresh.isEmpty then [] else fresh.filter Transition.isEpsilon ++ [t]

theorem addMissing_ok {ts : List Transition} {a b : Nfa} {log : List Event}
    {fresh : List Transition} (ok : addMissing ts a = ⟨b, log, .ok fresh⟩) :
    b.transitions = a.transitions ++ fresh ∧
      (∀ labels, (∀ t ∈ ts, t.symbol ∈ labels) → Grown labels a b) ∧
      ∀ t ∈ fresh, t ∈ ts ∧ t ∉ a.transitions ∧ t.source < a.size ∧ t.target < a.size := by
  induction ts generalizing a b log fresh with
  | nil =>
    obtain ⟨rfl, rfl, rfl⟩ := Edit.pure_ok.mp ok
    exact ⟨by simp, fun _ _ => .refl, by simp⟩
  | cons t rest ih =>
    simp only [addMissing, Edit.bind_ok, Edit.pure_ok] at ok
    obtain ⟨mid, _, added, _, first, ⟨_, _, later, _, more, ⟨rfl, rfl, rfl⟩, rfl⟩, rfl⟩ := ok
    obtain ⟨flat, grown, new⟩ := ih more
    obtain ⟨⟨source, target⟩, ⟨rfl, _, rfl, rfl⟩ | ⟨rfl, absent, flat', _, grown'⟩⟩ :=
      addTransition_ok first
    · refine ⟨flat, fun labels h => grown labels fun u hu => h u (List.mem_cons_of_mem _ hu), ?_⟩
      intro u hu
      obtain ⟨member, rest⟩ := new u (by simpa using hu)
      exact ⟨List.mem_cons_of_mem _ member, rest⟩
    · refine ⟨by simp [flat, flat'], fun labels h => ?_, fun u hu => ?_⟩
      · exact (grown' labels (h t (by simp))).trans
          (grown labels fun u hu => h u (List.mem_cons_of_mem _ hu))
      · have size : mid.size = a.size := (grown' [t.symbol] (by simp)).size
        rcases List.mem_cons.mp (by simpa using hu) with rfl | hu
        · exact ⟨by simp, absent, source, target⟩
        · obtain ⟨member, old, ends⟩ := new u hu
          rw [size] at ends
          refine ⟨List.mem_cons_of_mem _ member, fun h => old ?_, ends⟩
          rw [flat']
          exact List.mem_append_left _ h

theorem nodup_addMissing {ts : List Transition} {a b : Nfa} {log : List Event}
    {fresh : List Transition} (ok : addMissing ts a = ⟨b, log, .ok fresh⟩) : fresh.Nodup := by
  induction ts generalizing a b log fresh with
  | nil =>
    obtain ⟨_, _, rfl⟩ := Edit.pure_ok.mp ok
    exact .nil
  | cons t rest ih =>
    simp only [addMissing, Edit.bind_ok, Edit.pure_ok] at ok
    obtain ⟨mid, _, added, _, first, ⟨_, _, later, _, more, ⟨_, _, rfl⟩, _⟩, _⟩ := ok
    obtain ⟨_, ⟨rfl, _⟩ | ⟨rfl, _, flat, _⟩⟩ := addTransition_ok first
    · simpa using ih more
    · have present : t ∈ mid.transitions := by simp [flat]
      have absent : t ∉ later := fun again => ((addMissing_ok more).2.2 t again).2.1 present
      simpa using ⟨absent, ih more⟩

theorem Rule.apply_ok {rule : Rule} {t : Transition} {a b : Nfa} {log : List Event}
    {more : List Transition} (ok : rule.apply t a = ⟨b, log, .ok more⟩) :
    ∃ fresh, addMissing (rule.unmet a t) a = ⟨b, log, .ok fresh⟩ ∧
      more = if fresh.isEmpty then [] else fresh.filter Transition.isEpsilon ++ [t] := by
  simp only [apply, Edit.bind_ok, Edit.get_ok, Edit.pure_ok] at ok
  obtain ⟨_, _, _, _, ⟨rfl, rfl, rfl⟩, ⟨_, _, fresh, _, added, ⟨rfl, rfl, rfl⟩, rfl⟩, rfl⟩ := ok
  exact ⟨fresh, by simpa using added, rfl⟩

theorem Rule.grown_of_added {rule : Rule} {t : Transition} {a b : Nfa} {log : List Event}
    {ts fresh : List Transition} {labels : List Symbol} (called : ∀ u ∈ ts, u ∈ rule.calls a t)
    (epsilon : .epsilon ∈ labels) (entered : EnteredOn labels a)
    (added : addMissing ts a = ⟨b, log, .ok fresh⟩) : Grown labels a b :=
  (addMissing_ok added).2.1 labels fun u hu => rule.labelled epsilon entered (called u hu)

/-- What joins the queue is at most twice what was missing: the item that is put back comes with the
first transition that it added. -/
theorem Rule.missing_add_length_le_of_added {rule : Rule} {t : Transition} {a b : Nfa}
    {log : List Event} {ts fresh : List Transition} {labels : List Symbol}
    (called : ∀ u ∈ ts, u ∈ rule.calls a t) (epsilon : .epsilon ∈ labels)
    (entered : EnteredOn labels a) (added : addMissing ts a = ⟨b, log, .ok fresh⟩) :
    2 * missing labels b +
        (if fresh.isEmpty then [] else fresh.filter Transition.isEpsilon ++ [t]).length ≤
      2 * missing labels a := by
  have grown := grown_of_added called epsilon entered added
  obtain ⟨flat, _, new⟩ := addMissing_ok added
  have paid : missing labels b + fresh.length ≤ missing labels a := by
    refine grown.missing_add_length_le (nodup_addMissing added) fun u member => ?_
    obtain ⟨listed, absent, source, target⟩ := new u member
    have label := rule.labelled epsilon entered (called u listed)
    exact ⟨source, target, label, absent, by simp [flat, member]⟩
  cases fresh with
  | nil => exact Nat.mul_le_mul_left 2 paid
  | cons u fresh =>
    have filtered := List.length_filter_le Transition.isEpsilon (u :: fresh)
    simp only [List.isEmpty_cons, Bool.false_eq_true, if_false, List.length_append,
      List.length_singleton]
    rw [List.length_cons] at filtered paid
    omega

theorem Rule.apply_grown {rule : Rule} {t : Transition} {a b : Nfa} {log : List Event}
    {more : List Transition} {labels : List Symbol} (epsilon : .epsilon ∈ labels)
    (entered : EnteredOn labels a) (ok : rule.apply t a = ⟨b, log, .ok more⟩) :
    Grown labels a b := by
  obtain ⟨_, added, _⟩ := apply_ok ok
  exact grown_of_added (fun _ hu => (mem_unmet.mp hu).1) epsilon entered added

theorem Rule.missing_add_length_le {rule : Rule} {t : Transition} {a b : Nfa} {log : List Event}
    {more : List Transition} {labels : List Symbol} (epsilon : .epsilon ∈ labels)
    (entered : EnteredOn labels a) (ok : rule.apply t a = ⟨b, log, .ok more⟩) :
    2 * missing labels b + more.length ≤ 2 * missing labels a := by
  obtain ⟨_, added, rfl⟩ := apply_ok ok
  exact missing_add_length_le_of_added (fun _ hu => (mem_unmet.mp hu).1) epsilon entered added

theorem Rule.missing_le {rule : Rule} {t : Transition} {a b : Nfa} {log : List Event}
    {more : List Transition} {labels : List Symbol} (epsilon : .epsilon ∈ labels)
    (entered : EnteredOn labels a) (ok : rule.apply t a = ⟨b, log, .ok more⟩) :
    missing labels b ≤ missing labels a := by
  have := missing_add_length_le epsilon entered ok
  omega

theorem Rule.missing_lt {rule : Rule} {t : Transition} {a b : Nfa} {log : List Event}
    {more : List Transition} {labels : List Symbol} (epsilon : .epsilon ∈ labels)
    (entered : EnteredOn labels a) (ok : rule.apply t a = ⟨b, log, .ok more⟩)
    (progress : more ≠ []) : missing labels b < missing labels a := by
  have := missing_add_length_le epsilon entered ok
  have := List.length_pos_iff.mpr progress
  omega

def Rule.worklist (rule : Rule) (labels : List Symbol) : Worklist Nfa Transition where
  step := rule.apply
  valid a := .epsilon ∈ labels ∧ EnteredOn labels a
  bound := missing labels
  keeps ready ok := ⟨ready.1, (apply_grown ready.1 ready.2 ok).entered ready.2⟩
  bound_le ready ok := missing_le ready.1 ready.2 ok
  bound_lt ready ok := missing_lt ready.1 ready.2 ok

/-- Starts from the epsilon transitions at hand. -/
def saturate (rule : Rule) : Edit Nfa Unit := fun a =>
  (rule.worklist (.epsilon :: a.enteringSymbols)).run a.epsilonTransitions a
    ⟨List.mem_cons_self, a.enteredOn_enteringSymbols.mono fun _ => List.mem_cons_of_mem _⟩

end FiniteAutomata.Nfa
