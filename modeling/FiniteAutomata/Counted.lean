import FiniteAutomata.Nfa.Elimination

/-!
Elimination that counts as it goes. While the epsilon transitions are saturated, everything that is
called for is tried, and every transition is counted when it is added; otherwise only what is missing
is tried, and the numbers of transitions before and after are compared.
-/

namespace FiniteAutomata

structure Tally (σ : Type) where
  value : σ
  count : Nat := 0

variable {σ α : Type}

namespace Edit

/-- Edits the value, and counts if the edit says that it made a difference. -/
def tallied (m : Edit σ Bool) : Edit (Tally σ) Bool := fun s =>
  let done := m s.value
  let count := match done.result with
    | .ok true => s.count + 1
    | _ => s.count
  ⟨⟨done.final, count⟩, done.log, done.result⟩

/-- But for the count, the first edit does what the second one does. -/
abbrev Counts (m' : Edit (Tally σ) α) (m : Edit σ α) : Prop :=
  Refines Tally.value (fun _ => True) m' m

theorem tallied_counts (m : Edit σ Bool) : Counts (tallied m) m where
  same _ _ := rfl
  keeps _ _ := trivial

end Edit

namespace Nfa.Counted

/-- Counts the transitions that are new. -/
def addMissing : List Transition → Edit (Tally Nfa) (List Transition)
  | [] => pure []
  | t :: rest => do
    let added ← Edit.tallied (addTransition t)
    let fresh ← addMissing rest
    return if added then t :: fresh else fresh

theorem addMissing_counts (ts : List Transition) : (addMissing ts).Counts (Nfa.addMissing ts) := by
  induction ts with
  | nil => exact .pure []
  | cons t rest ih => exact (Edit.tallied_counts _).bind fun _ => ih.bind fun _ => .pure _

/-- Tries everything that is called for, whether it is met or not. -/
def apply (rule : Rule) (t : Transition) : Edit (Tally Nfa) (List Transition) := do
  let fresh ← addMissing (rule.calls (← Edit.get).value t)
  return if fresh.isEmpty then [] else fresh.filter Transition.isEpsilon ++ [t]

theorem apply_ok {rule : Rule} {t : Transition} {s u : Tally Nfa} {log : List Event}
    {more : List Transition} (ok : apply rule t s = ⟨u, log, .ok more⟩) :
    ∃ fresh, addMissing (rule.calls s.value t) s = ⟨u, log, .ok fresh⟩ ∧
      more = if fresh.isEmpty then [] else fresh.filter Transition.isEpsilon ++ [t] := by
  simp only [apply, Edit.bind_ok, Edit.get_ok, Edit.pure_ok] at ok
  obtain ⟨_, _, _, _, ⟨rfl, rfl, rfl⟩, ⟨_, _, fresh, _, added, ⟨rfl, rfl, rfl⟩, rfl⟩, rfl⟩ := ok
  exact ⟨fresh, by simpa using added, rfl⟩

theorem apply_grown {rule : Rule} {t : Transition} {s u : Tally Nfa} {log : List Event}
    {more : List Transition} {labels : List Symbol} (epsilon : .epsilon ∈ labels)
    (entered : EnteredOn labels s.value) (ok : apply rule t s = ⟨u, log, .ok more⟩) :
    Grown labels s.value u.value := by
  obtain ⟨_, added, _⟩ := apply_ok ok
  exact Rule.grown_of_added (fun _ => id) epsilon entered ((addMissing_counts _).ok trivial added)

theorem missing_add_length_le {rule : Rule} {t : Transition} {s u : Tally Nfa} {log : List Event}
    {more : List Transition} {labels : List Symbol} (epsilon : .epsilon ∈ labels)
    (entered : EnteredOn labels s.value) (ok : apply rule t s = ⟨u, log, .ok more⟩) :
    2 * missing labels u.value + more.length ≤ 2 * missing labels s.value := by
  obtain ⟨_, added, rfl⟩ := apply_ok ok
  exact Rule.missing_add_length_le_of_added (fun _ => id) epsilon entered
    ((addMissing_counts _).ok trivial added)

def worklist (rule : Rule) (labels : List Symbol) : Worklist (Tally Nfa) Transition where
  step := apply rule
  valid s := .epsilon ∈ labels ∧ EnteredOn labels s.value
  bound s := missing labels s.value
  keeps ready ok := ⟨ready.1, (apply_grown ready.1 ready.2 ok).entered ready.2⟩
  bound_le ready ok := by
    have := missing_add_length_le ready.1 ready.2 ok
    omega
  bound_lt ready ok progress := by
    have := missing_add_length_le ready.1 ready.2 ok
    have := List.length_pos_iff.mpr progress
    omega

theorem saturate_ready (rule : Rule) (a : Nfa) :
    (worklist rule (.epsilon :: a.enteringSymbols)).valid ⟨a, 0⟩ :=
  ⟨List.mem_cons_self, a.enteredOn_enteringSymbols.mono fun _ => List.mem_cons_of_mem _⟩

/-- Tells how many transitions have been added. -/
def saturate (rule : Rule) : Edit Nfa Nat := fun a =>
  let done := (worklist rule (.epsilon :: a.enteringSymbols)).run a.epsilonTransitions ⟨a, 0⟩
    (saturate_ready rule a)
  ⟨done.final.value, done.log, done.result.map fun _ => done.final.count⟩

def saturateReporting (rule : Rule) (event : Nat → Event) : Edit Nfa Unit := do
  let added ← saturate rule
  Edit.emit (event added)

def eliminateEpsilons : Edit Nfa Unit := do
  let a ← Edit.get
  Edit.emit (.eliminating a.epsilonTransitions.length a.size)
  closeInitial
  saturateReporting composition .epsilonClosed
  promoteAccepting
  saturateReporting shortcut .shortcutsAdded
  discardEpsilon
  verifyEpsilonFree

end Nfa.Counted
end FiniteAutomata
