import FiniteAutomata.Nfa.Declaration
import FiniteAutomata.Proofs.Undo

/-!
What is built from a declaration. Every part of it is entered by a loop that goes through or stops at
the first item that is out of place; so a declaration without fault is realized as it stands, but for
repetitions, and of all the faults of another one the first is reported.
-/

namespace FiniteAutomata

/-! ### Declarations and their faults -/

namespace Declaration

def names (d : Declaration) : List String := d.states.map Prod.fst

/-- The letters on transitions. -/
def labels (edges : List (String × Symbol × String)) : List Symbol :=
  (edges.map fun e => e.2.1).filter (· ≠ .epsilon)

/-- The names at the ends of transitions, sources before targets. -/
def ends (edges : List (String × Symbol × String)) : List String :=
  edges.flatMap fun e => [e.1, e.2.2]

/-- The names that have to be known, in the order in which they are looked up. -/
def mentioned (d : Declaration) : List String := ends d.transitions ++ d.initial

structure Sound (d : Declaration) : Prop where
  distinct : d.names.Nodup
  proper : .epsilon ∉ d.letters
  known : ∀ name ∈ d.mentioned, name ∈ d.names

/-- The first name that is no state's. -/
def firstMissing (known looked : List String) : Option String := looked.find? (· ∉ known)

/-- The first fault: a state that is declared again, an epsilon among the letters, or a name that
is no state's. -/
inductive FirstFault (d : Declaration) : Error → Prop
  | again {before after : List String} {name : String} (split : d.names = before ++ name :: after)
      (distinct : before.Nodup) (member : name ∈ before) : FirstFault d (.duplicateState name)
  | epsilon (distinct : d.names.Nodup) (member : .epsilon ∈ d.letters) :
      FirstFault d .epsilonInAlphabet
  | unknown {name : String} (distinct : d.names.Nodup) (proper : .epsilon ∉ d.letters)
      (missing : firstMissing d.names d.mentioned = some name) : FirstFault d (.unknownState name)

/-- The transition between the positions of the names. -/
def resolved (d : Declaration) (e : String × Symbol × String) : Transition :=
  ⟨d.names.idxOf e.1, e.2.1, d.names.idxOf e.2.2⟩

/-- Every part of the declaration in its order, repetitions left out. -/
structure Realizes (d : Declaration) (a : Nfa) : Prop where
  wellFormed : a.WellFormed
  states : a.states.map (fun q => (q.name, q.kind)) = d.states
  letters : a.alphabet.letters = (d.letters ++ labels d.transitions).eraseDups
  transitions : a.transitions = (d.transitions.map d.resolved).eraseDups
  initial : a.initial = .ofList (d.initial.map d.names.idxOf)

namespace FirstFault

variable {d : Declaration} {e e' : Error}

theorem not_sound (fault : d.FirstFault e) : ¬ d.Sound := by
  intro sound
  cases fault with
  | again split _ member => exact not_nodup_of_again member (split ▸ sound.distinct)
  | epsilon _ member => exact sound.proper member
  | unknown _ _ missing =>
    have unheard := List.find?_some (p := fun n => decide (n ∉ d.names)) missing
    exact of_decide_eq_true unheard (sound.known _ (List.mem_of_find?_eq_some missing))

/-- Of two names that are declared again, neither comes first. -/
theorem again_unique {before before' after after' : List String} {name name' : String}
    (same : before ++ name :: after = before' ++ name' :: after') (distinct : before.Nodup)
    (distinct' : before'.Nodup) (member : name ∈ before) (member' : name' ∈ before') :
    name = name' := by
  rcases List.append_eq_append_iff.mp same with ⟨mid, longer, rest⟩ | ⟨mid, longer, rest⟩
  · cases mid with
    | nil => exact (List.cons.inj rest).1
    | cons _ mid =>
      obtain ⟨rfl, _⟩ := List.cons.inj rest
      exact (not_nodup_of_again member (longer ▸ distinct')).elim
  · cases mid with
    | nil => exact (List.cons.inj rest).1.symm
    | cons _ mid =>
      obtain ⟨rfl, _⟩ := List.cons.inj rest
      exact (not_nodup_of_again member' (longer ▸ distinct)).elim

theorem unique (fault : d.FirstFault e) (fault' : d.FirstFault e') : e = e' := by
  cases fault with
  | again split distinct member =>
    cases fault' with
    | again split' distinct' member' =>
      rw [again_unique (split.symm.trans split') distinct distinct' member member']
    | epsilon distinct' => exact (not_nodup_of_again member (split ▸ distinct')).elim
    | unknown distinct' => exact (not_nodup_of_again member (split ▸ distinct')).elim
  | epsilon distinct member =>
    cases fault' with
    | again split' _ member' => exact (not_nodup_of_again member' (split' ▸ distinct)).elim
    | epsilon => rfl
    | unknown _ proper' => exact (proper' member).elim
  | unknown distinct proper missing =>
    cases fault' with
    | again split' _ member' => exact (not_nodup_of_again member' (split' ▸ distinct)).elim
    | epsilon _ member' => exact (proper member').elim
    | unknown _ _ missing' => rw [Option.some.inj (missing.symm.trans missing')]

end FirstFault

/-! ### One more item -/

theorem mem_ends {edges : List (String × Symbol × String)} {name : String} :
    name ∈ ends edges ↔ ∃ e ∈ edges, name = e.1 ∨ name = e.2.2 := by
  simp only [ends, List.mem_flatMap, List.mem_cons, List.not_mem_nil, or_false]

theorem labels_nil : labels [] = [] := rfl

theorem labels_concat (edges : List (String × Symbol × String)) (e : String × Symbol × String) :
    labels (edges ++ [e]) = if e.2.1 = .epsilon then labels edges else labels edges ++ [e.2.1] := by
  rw [labels, List.map_append, List.filter_append]
  split
  · rename_i epsilon
    rw [List.map_singleton, List.filter_cons_of_neg (by simp [epsilon]), List.filter_nil,
      List.append_nil]
    rfl
  · rename_i letter
    rw [List.map_singleton, List.filter_cons_of_pos (by simp [letter])]
    rfl

namespace Realizes

variable {d : Declaration} {a : Nfa} {name : String}

theorem empty : Realizes {} {} where
  wellFormed := Nfa.wellFormed_empty
  states := rfl
  letters := rfl
  transitions := rfl
  initial := rfl

theorem names (h : d.Realizes a) : a.states.map Nfa.State.name = d.names := by
  rw [Declaration.names, ← h.states, List.map_map]
  rfl

theorem size (h : d.Realizes a) : a.size = d.names.length := by
  rw [← h.names, List.length_map]
  rfl

theorem sound (h : d.Realizes a) : d.Sound := by
  constructor
  case distinct => exact h.names ▸ h.wellFormed.names
  case proper =>
    intro member
    refine h.wellFormed.proper ?_
    rw [h.letters, List.mem_eraseDups]
    exact List.mem_append_left _ member
  case known =>
    intro name member
    -- A name that is no state's would have been resolved to a position past the end.
    apply List.idxOf_lt_length_iff.mp
    rw [← h.size]
    rcases List.mem_append.mp member with endpoint | start
    · obtain ⟨e, declared, here⟩ := mem_ends.mp endpoint
      have listed : d.resolved e ∈ a.transitions := by
        rw [h.transitions, List.mem_eraseDups]
        exact List.mem_map_of_mem declared
      obtain ⟨source, target⟩ := h.wellFormed.ends _ listed
      rcases here with rfl | rfl
      · exact source
      · exact target
    · refine h.wellFormed.starts _ ?_
      rw [h.initial, StateSet.mem_ofList]
      exact List.mem_map_of_mem start

theorem enlarged {states : List (String × Kind)} (h : Realizes { states := states } a)
    (free : name ∉ a.states.map Nfa.State.name) (kind : Kind) :
    Realizes { states := states ++ [(name, kind)] } (a.enlarged name kind) where
  wellFormed := h.wellFormed.enlarged free kind
  states := by
    rw [Nfa.enlarged, List.map_append, h.states]
    rfl
  letters := h.letters
  transitions := h.transitions
  initial := h.initial

/-- Letters come before transitions, so none is known from one. -/
theorem learn {x : Symbol} (h : d.Realizes a) (none : d.transitions = []) (letter : x ≠ .epsilon) :
    Realizes { d with letters := d.letters ++ [x] } { a with alphabet := a.alphabet.learn x } where
  wellFormed := by
    have kept := h.wellFormed.addSymbol x
    rwa [Nfa.addSymbol_letter letter] at kept
  states := h.states
  letters := by
    show _ = (d.letters ++ [x] ++ labels d.transitions).eraseDups
    rw [Alphabet.letters_learn, if_neg letter, h.letters, none, labels_nil, List.append_nil,
      List.append_nil, eraseDups_concat]
  transitions := h.transitions
  initial := h.initial

theorem letters_concat (h : d.Realizes a) (e : String × Symbol × String) :
    (a.alphabet.learn e.2.1).letters = (d.letters ++ labels (d.transitions ++ [e])).eraseDups := by
  rw [Alphabet.letters_learn, labels_concat, h.letters]
  by_cases epsilon : e.2.1 = .epsilon
  · rw [if_pos epsilon, if_pos epsilon]
  · rw [if_neg epsilon, if_neg epsilon, ← List.append_assoc, eraseDups_concat]

theorem transitions_concat (h : d.Realizes a) (e : String × Symbol × String) :
    enlist a.transitions (d.resolved e) =
      ((d.transitions ++ [e]).map d.resolved).eraseDups := by
  rw [h.transitions, List.map_append, List.map_singleton, eraseDups_concat]

theorem listed {e : String × Symbol × String} (h : d.Realizes a)
    (listed : d.resolved e ∈ a.transitions) :
    Realizes { d with transitions := d.transitions ++ [e] } a where
  wellFormed := h.wellFormed
  states := h.states
  letters := by
    have known : a.alphabet.learn e.2.1 = a.alphabet :=
      Alphabet.learn_of_known (h.wellFormed.known _ listed)
    rw [← h.letters_concat, known]
  transitions := by
    have same := h.transitions_concat e
    rwa [enlist, if_pos listed] at same
  initial := h.initial

theorem including {e : String × Symbol × String} (h : d.Realizes a) (source : e.1 ∈ d.names)
    (target : e.2.2 ∈ d.names) (absent : d.resolved e ∉ a.transitions) :
    Realizes { d with transitions := d.transitions ++ [e] } (a.including (d.resolved e)) where
  wellFormed := h.wellFormed.including (h.size ▸ List.idxOf_lt_length_iff.mpr source)
    (h.size ▸ List.idxOf_lt_length_iff.mpr target) absent
  states := by
    rw [Nfa.including, List.map_map]
    exact h.states
  letters := h.letters_concat e
  transitions := by
    have joined := h.transitions_concat e
    rwa [enlist, if_neg absent] at joined
  initial := h.initial

theorem starting (h : d.Realizes a) (known : name ∈ d.names) :
    Realizes { d with initial := d.initial ++ [name] }
      { a with initial := a.initial.insert (d.names.idxOf name) } where
  wellFormed := h.wellFormed.insert_initial (h.size ▸ List.idxOf_lt_length_iff.mpr known)
  states := h.states
  letters := h.letters
  transitions := h.transitions
  initial := by
    rw [h.initial, List.map_append, StateSet.ofList, StateSet.ofList, List.foldl_append]
    rfl

theorem stateId?_eq (h : d.Realizes a) (name : String) :
    a.stateId? name = if name ∈ d.names then some (d.names.idxOf name) else none := by
  have looked : a.stateId? name = d.names.findIdx? (· == name) := by
    rw [← h.names, List.findIdx?_map]
    rfl
  rw [looked]
  split
  · rename_i known
    exact List.findIdx?_eq_some_of_exists ⟨name, known, beq_self_eq_true name⟩
  · rename_i missing
    refine List.findIdx?_eq_none_iff.mpr fun n member => beq_eq_false_iff_ne.mpr ?_
    rintro rfl
    exact missing member

theorem resolve_known (h : d.Realizes a) (known : name ∈ d.names) :
    Nfa.resolve name a = ⟨a, [], .ok (d.names.idxOf name)⟩ := by
  have found := h.stateId?_eq name
  rw [if_pos known] at found
  refine Edit.bind_of_silent Edit.get_apply ?_
  rw [found]
  rfl

theorem resolve_missing (h : d.Realizes a) (missing : name ∉ d.names) :
    Nfa.resolve name a = ⟨a, [], .error (.unknownState name)⟩ := by
  have absent := h.stateId?_eq name
  rw [if_neg missing] at absent
  refine Edit.bind_of_silent Edit.get_apply ?_
  rw [absent]
  rfl

end Realizes

/-! ### The loops -/

/-- From what realizes one declaration the edit leads to what realizes the next, or else it reports
the first fault of the whole. -/
def Enters {α : Type} (d begun next : Declaration) (m : Edit Nfa α) : Prop :=
  ∀ a, begun.Realizes a →
    (∃ b log r, m a = ⟨b, log, .ok r⟩ ∧ next.Realizes b) ∨
      ∃ b log e, m a = ⟨b, log, .error e⟩ ∧ d.FirstFault e

namespace Enters

variable {α β : Type} {d begun next last : Declaration}

theorem bind {m : Edit Nfa α} {m' : Edit Nfa β} (first : d.Enters begun next m)
    (second : d.Enters next last m') : d.Enters begun last (m >>= fun _ => m') := by
  intro a h
  rcases first a h with ⟨b, log, r, ran, h'⟩ | ⟨b, log, e, failed, fault⟩
  · rcases second b h' with ⟨c, log', r', ran', final⟩ | ⟨c, log', e, failed, fault⟩
    · exact .inl ⟨c, log ++ log', r', Edit.bind_of_ok ran ran', final⟩
    · exact .inr ⟨c, log ++ log', e, Edit.bind_of_ok ran failed, fault⟩
  · exact .inr ⟨b, log, e, Edit.bind_of_error failed, fault⟩

/-- A loop that enters one item after the other. -/
theorem loop {items : List α} (loop : List α → Edit Nfa Unit) (step : α → Edit Nfa β)
    (begun : List α → Declaration) (nil : loop [] = pure ())
    (cons : ∀ x rest, loop (x :: rest) = step x >>= fun _ => loop rest)
    (each : ∀ before x rest, items = before ++ x :: rest →
      d.Enters (begun before) (begun (before ++ [x])) (step x)) :
    d.Enters (begun []) (begun items) (loop items) := by
  suffices ∀ rest before, items = before ++ rest → d.Enters (begun before) (begun items) (loop rest)
    from this items [] rfl
  -- On what is left of the list, while what comes before it has been entered.
  intro rest
  induction rest with
  | nil =>
    intro before all a h
    rw [List.append_nil] at all
    rw [nil, all]
    exact .inl ⟨a, [], (), Edit.pure_apply, h⟩
  | cons x rest ih =>
    intro before all
    rw [cons]
    exact (each before x rest all).bind (ih (before ++ [x]) (by rw [all, List.append_cons]))

end Enters

theorem firstMissing_of_split {known before after : List String} {name : String}
    (heard : ∀ n ∈ before, n ∈ known) (missing : name ∉ known) :
    firstMissing known (before ++ name :: after) = some name := by
  refine List.find?_eq_some_iff_append.mpr ⟨decide_eq_true missing, before, after, rfl, ?_⟩
  intro n member
  simpa using heard n member

section
variable {d : Declaration}

theorem enters_state {before rest : List (String × Kind)} {s : String × Kind}
    (split : d.states = before ++ s :: rest) :
    d.Enters { states := before } { states := before ++ [s] } (Nfa.addState s.1 s.2) := by
  intro a h
  by_cases taken : s.1 ∈ a.states.map Nfa.State.name
  · refine .inr ⟨a, [], _, Nfa.addState_taken taken s.2, ?_⟩
    have names : d.names = before.map Prod.fst ++ s.1 :: rest.map Prod.fst := by
      rw [Declaration.names, split, List.map_append, List.map_cons]
    rw [h.names] at taken
    exact .again names h.sound.distinct taken
  · exact .inl ⟨_, _, _, Nfa.addState_free taken s.2, h.enlarged taken s.2⟩

theorem enters_letter {before rest : List Symbol} {x : Symbol}
    (split : d.letters = before ++ x :: rest) :
    d.Enters { states := d.states, letters := before }
      { states := d.states, letters := before ++ [x] } (Nfa.addSymbol x) := by
  intro a h
  by_cases epsilon : x = .epsilon
  · subst epsilon
    refine .inr ⟨a, [], _, Nfa.addSymbol_epsilon a, .epsilon h.sound.distinct ?_⟩
    rw [split]
    exact List.mem_append_right _ List.mem_cons_self
  · exact .inl ⟨_, _, _, Nfa.addSymbol_letter epsilon, h.learn rfl epsilon⟩

theorem enters_transition {before rest : List (String × Symbol × String)}
    {e : String × Symbol × String} (split : d.transitions = before ++ e :: rest) :
    d.Enters { d with transitions := before, initial := [] }
      { d with transitions := before ++ [e], initial := [] } (do
        let p ← Nfa.resolve e.1
        let q ← Nfa.resolve e.2.2
        Nfa.addTransition ⟨p, e.2.1, q⟩) := by
  intro a h
  have heard : ∀ n ∈ ends before, n ∈ d.names := fun n member =>
    h.sound.known n (List.mem_append_left _ member)
  have mentioned : d.mentioned =
      ends before ++ e.1 :: e.2.2 :: (ends rest ++ d.initial) := by
    simp [Declaration.mentioned, ends, split]
  by_cases source : e.1 ∈ d.names
  · by_cases target : e.2.2 ∈ d.names
    · left
      have source_lt := h.size ▸ List.idxOf_lt_length_iff.mpr source
      have target_lt := h.size ▸ List.idxOf_lt_length_iff.mpr target
      by_cases listed : d.resolved e ∈ a.transitions
      · exact ⟨a, [], _, Edit.bind_of_silent (h.resolve_known source)
          (Edit.bind_of_silent (h.resolve_known target)
            (Nfa.addTransition_present h.wellFormed listed)), h.listed listed⟩
      · exact ⟨_, _, _, Edit.bind_of_silent (h.resolve_known source)
          (Edit.bind_of_silent (h.resolve_known target)
            (Nfa.addTransition_absent h.wellFormed source_lt target_lt listed)),
          h.including source target listed⟩
    · have failed := h.resolve_missing target
      refine .inr ⟨a, [], _, Edit.bind_of_silent (h.resolve_known source)
        (Edit.bind_of_error failed), ?_⟩
      refine .unknown h.sound.distinct h.sound.proper ?_
      rw [mentioned, List.append_cons]
      refine firstMissing_of_split (fun n member => ?_) target
      rcases List.mem_append.mp member with earlier | same
      · exact heard n earlier
      · exact List.mem_singleton.mp same ▸ source
  · refine .inr ⟨a, [], _, Edit.bind_of_error (h.resolve_missing source), ?_⟩
    refine .unknown h.sound.distinct h.sound.proper ?_
    rw [mentioned]
    exact firstMissing_of_split heard source

theorem enters_start {before rest : List String} {name : String}
    (split : d.initial = before ++ name :: rest) :
    d.Enters { d with initial := before } { d with initial := before ++ [name] } (do
      let q ← Nfa.resolve name
      Nfa.addInitial q) := by
  intro a h
  by_cases known : name ∈ d.names
  · have exist : d.names.idxOf name < a.size := h.size ▸ List.idxOf_lt_length_iff.mpr known
    exact .inl ⟨_, [], _, Edit.bind_of_silent (h.resolve_known known) (Nfa.addInitial_of_lt exist),
      h.starting known⟩
  · refine .inr ⟨a, [], _, Edit.bind_of_error (h.resolve_missing known), ?_⟩
    refine .unknown h.sound.distinct h.sound.proper ?_
    rw [Declaration.mentioned, split, ← List.append_assoc]
    exact firstMissing_of_split h.sound.known known

theorem enters_all (d : Declaration) : d.Enters {} d (Nfa.declare d) := by
  have states : d.Enters {} { states := d.states } (Nfa.addStates d.states) :=
    Enters.loop Nfa.addStates (fun s => Nfa.addState s.1 s.2) (fun before => { states := before })
      rfl (fun _ _ => rfl) fun _ _ _ => enters_state
  have letters : d.Enters { states := d.states } { states := d.states, letters := d.letters }
      (Nfa.addSymbols d.letters) :=
    Enters.loop Nfa.addSymbols Nfa.addSymbol
      (fun before => { states := d.states, letters := before })
      rfl (fun _ _ => rfl) fun _ _ _ => enters_letter
  have transitions : d.Enters { states := d.states, letters := d.letters }
      { d with initial := [] } (Nfa.addNamed d.transitions) :=
    Enters.loop Nfa.addNamed _ (fun before => { d with transitions := before, initial := [] })
      rfl (fun e rest => by simp only [Nfa.addNamed, bind_assoc]) fun _ _ _ => enters_transition
  have initial : d.Enters { d with initial := [] } d (Nfa.addInitialNamed d.initial) :=
    Enters.loop Nfa.addInitialNamed _ (fun before => { d with initial := before })
      rfl (fun name rest => by simp only [Nfa.addInitialNamed, bind_assoc]) fun _ _ _ => enters_start
  exact states.bind (letters.bind (transitions.bind initial))

/-! ### What is built -/

theorem Realizes.bare_eq {a : Nfa} (h : d.Realizes a) :
    a.bare = d.states.mapIdx fun i s => { id := i, name := s.1, kind := s.2 } := by
  refine List.ext_getElem? fun i => ?_
  rw [List.getElem?_mapIdx, ← h.states, Nfa.bare, List.getElem?_map, List.getElem?_map]
  cases found : a.states[i]? with
  | none => rfl
  | some q =>
    have number := h.wellFormed.numbered i q found
    subst number
    rfl

theorem Realizes.unique {a b : Nfa} (h : d.Realizes a) (h' : d.Realizes b) : a = b := by
  have states : a.states = b.states := h'.wellFormed.states_unique h.wellFormed
    (h.bare_eq.trans h'.bare_eq.symm) (h.transitions.trans h'.transitions.symm)
  have letters : a.alphabet.letters = b.alphabet.letters := h.letters.trans h'.letters.symm
  obtain ⟨_, ⟨_⟩, _, _⟩ := a
  obtain ⟨_, ⟨_⟩, _, _⟩ := b
  simp only [Nfa.mk.injEq, Alphabet.mk.injEq]
  exact ⟨states, letters, h.transitions.trans h'.transitions.symm, h.initial.trans h'.initial.symm⟩

theorem build_cases (d : Declaration) :
    (∃ a, d.build = .ok a ∧ d.Realizes a) ∨ ∃ e, d.build = .error e ∧ d.FirstFault e := by
  rcases d.enters_all {} .empty with ⟨a, log, _, ran, h⟩ | ⟨a, log, e, failed, fault⟩
  · refine .inl ⟨a, ?_, h⟩
    rw [build, ran]
    rfl
  · refine .inr ⟨e, ?_, fault⟩
    rw [build, failed]
    rfl

theorem build_ok_iff {a : Nfa} : d.build = .ok a ↔ d.Realizes a := by
  rcases d.build_cases with ⟨b, built, h⟩ | ⟨e, failed, fault⟩
  · rw [built, Except.ok.injEq]
    constructor
    · rintro rfl
      exact h
    · exact h.unique
  · constructor
    · intro built
      cases failed.symm.trans built
    · intro h
      exact (fault.not_sound h.sound).elim

theorem build_error_iff {e : Error} : d.build = .error e ↔ d.FirstFault e := by
  rcases d.build_cases with ⟨a, built, h⟩ | ⟨e', failed, fault⟩
  · constructor
    · intro failed
      cases built.symm.trans failed
    · intro fault
      exact (fault.not_sound h.sound).elim
  · rw [failed, Except.error.injEq]
    constructor
    · rintro rfl
      exact fault
    · exact fault.unique

theorem build_succeeds_iff : (∃ a, d.build = .ok a) ↔ d.Sound := by
  constructor
  · rintro ⟨a, built⟩
    exact (build_ok_iff.mp built).sound
  · intro sound
    rcases d.build_cases with ⟨a, built, _⟩ | ⟨e, _, fault⟩
    · exact ⟨a, built⟩
    · exact (fault.not_sound sound).elim

end
end Declaration

/-! ### Clauses -/

/-- The four lists of a declaration. -/
inductive Clause.Part where
  | states
  | letters
  | transitions
  | initial
  deriving DecidableEq

namespace Clause

def part : Clause → Part
  | states _ | accepting _ | state _ _ => .states
  | alphabet _ => .letters
  | transitions _ | epsilon _ => .transitions
  | initial _ => .initial

def newStates : Clause → List (String × Kind)
  | states names => names.map (·, .ordinary)
  | accepting names => names.map (·, .accepting)
  | state name kind => [(name, kind)]
  | _ => []

def newLetters : Clause → List Symbol
  | alphabet letters => letters
  | _ => []

def newTransitions : Clause → List (String × Symbol × String)
  | transitions edges => edges
  | epsilon edges => edges.map fun (p, q) => (p, .epsilon, q)
  | _ => []

def newInitial : Clause → List String
  | initial names => names
  | _ => []

/-- Nothing is contributed but to the clause's own part. -/
theorem only (c : Clause) :
    (c.part ≠ .states → c.newStates = []) ∧ (c.part ≠ .letters → c.newLetters = []) ∧
      (c.part ≠ .transitions → c.newTransitions = []) ∧ (c.part ≠ .initial → c.newInitial = []) := by
  cases c <;> simp [part, newStates, newLetters, newTransitions, newInitial]

theorem flatMap_eq_of_part {α : Type} {items : Clause → List α} {part : Part}
    (elsewhere : ∀ c, c.part ≠ part → items c = []) (clauses : List Clause) :
    clauses.flatMap items = (clauses.filter (·.part = part)).flatMap items := by
  induction clauses with
  | nil => rfl
  | cons c rest ih =>
    rw [List.flatMap_cons, ih]
    by_cases here : c.part = part
    · rw [List.filter_cons_of_pos (by simpa using here), List.flatMap_cons]
    · rw [List.filter_cons_of_neg (by simpa using here), elsewhere c here, List.nil_append]

end Clause

namespace Declaration

/-- Every clause's contributions, in the order of the clauses. -/
def collected (clauses : List Clause) : Declaration where
  states := clauses.flatMap Clause.newStates
  letters := clauses.flatMap Clause.newLetters
  transitions := clauses.flatMap Clause.newTransitions
  initial := clauses.flatMap Clause.newInitial

theorem add_collected (clauses : List Clause) (c : Clause) :
    (collected clauses).add c = collected (clauses ++ [c]) := by
  unfold collected
  simp only [List.flatMap_append, List.flatMap_singleton]
  cases c <;> simp [add, Clause.newStates, Clause.newLetters, Clause.newTransitions, Clause.newInitial]

theorem ofClauses_eq (clauses : List Clause) : ofClauses clauses = collected clauses := by
  suffices ∀ before, clauses.foldl add (collected before) = collected (before ++ clauses)
    from this []
  induction clauses with
  | nil =>
    intro before
    rw [List.append_nil]
    rfl
  | cons c rest ih =>
    intro before
    rw [List.foldl_cons, add_collected, ih, ← List.append_cons]

theorem collected_congr {clauses other : List Clause}
    (same : ∀ part, other.filter (·.part = part) = clauses.filter (·.part = part)) :
    collected other = collected clauses := by
  have feed {α : Type} (items : Clause → List α) (part : Clause.Part)
      (elsewhere : ∀ c : Clause, c.part ≠ part → items c = []) :
      other.flatMap items = clauses.flatMap items := by
    rw [Clause.flatMap_eq_of_part elsewhere, same, ← Clause.flatMap_eq_of_part elsewhere]
  have states := feed Clause.newStates .states fun c => c.only.1
  have letters := feed Clause.newLetters .letters fun c => c.only.2.1
  have transitions := feed Clause.newTransitions .transitions fun c => c.only.2.2.1
  have initial := feed Clause.newInitial .initial fun c => c.only.2.2.2
  rw [collected, states, letters, transitions, initial, collected]

/-- The clauses declare `d`. What they build realizes it, or else the error is its first fault, and only
the order of clauses for the same part matters. -/
structure Builds (clauses : List Clause) (d : Declaration) : Prop where
  declared : ofClauses clauses = d
  succeeds : (∃ a, (ofClauses clauses).build = .ok a) ↔ d.Sound
  realizes : ∀ a, (ofClauses clauses).build = .ok a ↔ d.Realizes a
  fails : ∀ e, (ofClauses clauses).build = .error e ↔ d.FirstFault e
  reordered : ∀ other : List Clause,
    (∀ part, other.filter (·.part = part) = clauses.filter (·.part = part)) →
      (ofClauses other).build = (ofClauses clauses).build

/-- A list of clauses builds what they declare, or fails with the first fault, in whatever order the
parts are mixed. -/
theorem builds_collected (clauses : List Clause) : Builds clauses (collected clauses) where
  declared := ofClauses_eq clauses
  succeeds := by
    rw [ofClauses_eq]
    exact build_succeeds_iff
  realizes a := by
    rw [ofClauses_eq]
    exact build_ok_iff
  fails e := by
    rw [ofClauses_eq]
    exact build_error_iff
  reordered other same := by
    rw [ofClauses_eq, ofClauses_eq, collected_congr same]

/-- The missing target comes first, although the missing initial state was declared before it. -/
example : (ofClauses [.initial ["r"], .epsilon [("q", "s")], .states ["q"]]).build =
    .error (.unknownState "s") := rfl

end Declaration
end FiniteAutomata
