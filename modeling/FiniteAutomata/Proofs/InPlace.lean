import FiniteAutomata.Nfa.InPlace
import FiniteAutomata.Proofs.Leftovers

/-!
The indices of a single state as ordered multisets. Whatever calls are made on it, with transitions
that are repeated or belong elsewhere, each list is what appending and taking out make of it when the
calls that fail are left out. Calls that fail change nothing, although no change is ever taken back.
-/

namespace FiniteAutomata

/-! ### Changes of one index -/

namespace SymbolMap

variable {β : Type} (m : SymbolMap β) (x : Symbol) (v w : β)

theorem insert_insert : (m.insert x v).insert x w = m.insert x w := by
  refine ext_get? fun y => ?_
  rw [get?_insert, get?_insert, get?_insert]
  split <;> rfl

theorem erase_insert : (m.insert x v).erase x = m.erase x := by
  refine ext_get? fun y => ?_
  rw [get?_erase, get?_erase, get?_insert]
  split <;> rfl

end SymbolMap

namespace Adjacency

variable {index : Adjacency} {t : Transition}

theorem on_of_get? {x : Symbol} {ts : List Transition} (found : index.get? x = some ts) :
    index.on x = ts := by
  rw [on, found, Option.getD_some]

theorem attachInPlace_eq (index : Adjacency) (t : Transition) :
    attachInPlace t index = ⟨index.attach t, [], .ok ()⟩ := by
  cases found : index.get? t.symbol with
  | none =>
    have entered : Adjacency.on (index.insert t.symbol []) t.symbol = index.on t.symbol := by
      rw [on_insert, if_pos rfl, on, found, Option.getD_none]
    have twice : attachInPlace t index = ⟨(index.insert t.symbol []).insert t.symbol
        (Adjacency.on (index.insert t.symbol []) t.symbol ++ [t]), [], .ok ()⟩ := by
      simp [attachInPlace, Edit.bind_apply, Edit.get, found, Edit.modify]
    rw [twice, entered, SymbolMap.insert_insert]
    rfl
  | some ts =>
    simp [attachInPlace, Edit.bind_apply, Edit.get, found, Edit.modify, attach]

/-- All three ways out agree: no list for the symbol, no such transition in it, and taken out. -/
theorem detachInPlace_eq (index : Adjacency) (t : Transition) :
    detachInPlace t index = match index.detach t with
      | some rest => ⟨rest, [], .ok true⟩
      | none => ⟨index, [], .ok false⟩ := by
  cases found : index.get? t.symbol with
  | none =>
    have absent : index.detach t = none := by
      rw [detach, if_neg (by simp [on, found])]
    rw [absent]
    simp [detachInPlace, Edit.bind_apply, Edit.get, found, Edit.pure_apply]
  | some ts =>
    have listed := on_of_get? found
    cases place : ts.idxOf? t with
    | none =>
      have absent : index.detach t = none := by
        rw [detach, listed, if_neg (List.idxOf?_eq_none_iff.mp place)]
      rw [absent]
      simp [detachInPlace, Edit.bind_apply, Edit.get, found, place, Edit.pure_apply]
    | some i =>
      have member : t ∈ ts := List.isSome_idxOf?.mp (by rw [place]; rfl)
      have left : ts.erase t = ts.eraseIdx i := by
        rw [List.erase_eq_eraseIdx, place]
      have written : Adjacency.on (index.insert t.symbol (ts.eraseIdx i)) t.symbol =
          ts.eraseIdx i := by
        rw [on_insert, if_pos rfl]
      rw [detach, listed, if_pos member, left]
      cases rest : ts.eraseIdx i with
      | nil =>
        rw [rest] at written
        simp [-bind_pure_comp, detachInPlace, Edit.bind_apply, Edit.get, found, place, rest,
          written, Edit.modify, Edit.pure_apply, SymbolMap.erase_insert]
      | cons u us =>
        rw [rest] at written
        simp [detachInPlace, Edit.bind_apply, Edit.get, found, place, rest, written, Edit.modify,
          Edit.pure_apply]

end Adjacency

/-! ### Calls on a state -/

namespace Nfa.State

namespace Side

variable {side other : Side} {q : State} {t : Transition} {index rest : Adjacency}

@[simp]
theorem id_put (side : Side) (index : Adjacency) (q : State) : (side.put index q).id = q.id := by
  cases side <;> rfl

@[simp]
theorem name_put (side : Side) (index : Adjacency) (q : State) :
    (side.put index q).name = q.name := by
  cases side <;> rfl

@[simp]
theorem kind_put (side : Side) (index : Adjacency) (q : State) :
    (side.put index q).kind = q.kind := by
  cases side <;> rfl

@[simp]
theorem index_put (side : Side) (index : Adjacency) (q : State) :
    side.index (side.put index q) = index := by
  cases side <;> rfl

@[simp]
theorem put_index (side : Side) (q : State) : side.put (side.index q) q = q := by
  cases side <;> rfl

theorem index_put_other (differ : other ≠ side) (index : Adjacency) (q : State) :
    other.index (side.put index q) = other.index q := by
  cases side with
  | outbound =>
    cases other with
    | outbound => exact (differ rfl).elim
    | inbound => rfl
  | inbound =>
    cases other with
    | outbound => rfl
    | inbound => exact (differ rfl).elim

theorem add_here (here : side.here t = q.id) :
    side.add t q = ⟨side.put ((side.index q).attach t) q, [], .ok ()⟩ := by
  simp [add, Edit.bind_apply, Edit.get, here, edit, Adjacency.attachInPlace_eq]

theorem add_elsewhere (elsewhere : side.here t ≠ q.id) :
    side.add t q = ⟨q, [], .error (side.mismatch q t)⟩ := by
  simp [add, Edit.bind_apply, Edit.get, elsewhere, Edit.fail]

theorem remove_found (here : side.here t = q.id) (found : (side.index q).detach t = some rest) :
    side.remove t q = ⟨side.put rest q, [], .ok ()⟩ := by
  simp [remove, Edit.bind_apply, Edit.get, here, edit, Adjacency.detachInPlace_eq, found,
    Edit.pure_apply]

theorem remove_missing (here : side.here t = q.id) (missing : (side.index q).detach t = none) :
    side.remove t q = ⟨q, [], .error (.notRecorded q.name t.text)⟩ := by
  simp [remove, Edit.bind_apply, Edit.get, here, edit, Adjacency.detachInPlace_eq, missing, Edit.fail]

theorem remove_elsewhere (elsewhere : side.here t ≠ q.id) :
    side.remove t q = ⟨q, [], .error (side.mismatch q t)⟩ := by
  simp [remove, Edit.bind_apply, Edit.get, elsewhere, Edit.fail]

end Side

/-- Changing an index in place comes to the same as building the changed state, and doing so only if
nothing is wrong. -/
theorem perform_call (op : Operation) (q : State) : op.call.perform q =
    match q.perform op with
    | .ok r => ⟨r, [], .ok ()⟩
    | .error e => ⟨q, [], .error e⟩ := by
  cases op with
  | addOutbound t =>
    by_cases here : t.source = q.id
    · rw [perform, addOutbound, if_pos here]
      exact @Side.add_here .outbound q t here
    · rw [perform, addOutbound, if_neg here]
      exact @Side.add_elsewhere .outbound q t here
  | addInbound t =>
    by_cases here : t.target = q.id
    · rw [perform, addInbound, if_pos here]
      exact @Side.add_here .inbound q t here
    · rw [perform, addInbound, if_neg here]
      exact @Side.add_elsewhere .inbound q t here
  | removeOutbound t =>
    by_cases here : t.source = q.id
    · rw [perform, removeOutbound, if_pos here]
      cases found : q.outbound.detach t with
      | some rest => exact @Side.remove_found .outbound q t rest here found
      | none => exact @Side.remove_missing .outbound q t here found
    · rw [perform, removeOutbound, if_neg here]
      exact @Side.remove_elsewhere .outbound q t here
  | removeInbound t =>
    by_cases here : t.target = q.id
    · rw [perform, removeInbound, if_pos here]
      cases found : q.inbound.detach t with
      | some rest => exact @Side.remove_found .inbound q t rest here found
      | none => exact @Side.remove_missing .inbound q t here found
    · rw [perform, removeInbound, if_neg here]
      exact @Side.remove_elsewhere .inbound q t here
  | promote => rfl

/-! ### What calls keep -/

/-- An index as calls leave it: no empty lists, and every transition under its symbol and at its
state. -/
structure Side.Kept (side : Side) (number : StateId) (index : Adjacency) : Prop where
  tight : index.Tight
  filed : index.Filed
  here : ∀ t ∈ index.edges, side.here t = number

namespace Side.Kept

variable {side : Side} {number : StateId} {index rest : Adjacency} {t : Transition}

theorem empty (side : Side) (number : StateId) : side.Kept number ∅ :=
  ⟨Adjacency.tight_empty, Adjacency.filed_empty, fun _ member => by cases member⟩

theorem attach (h : side.Kept number index) (here : side.here t = number) :
    side.Kept number (index.attach t) where
  tight := Adjacency.tight_attach h.tight
  filed := h.filed.attach t
  here u member := by
    rcases Adjacency.mem_edges_attach member with rfl | old
    · exact here
    · exact h.here u old

theorem mem_on_iff (h : side.Kept number index) : t ∈ index.on t.symbol ↔ t ∈ index.edges := by
  rw [Adjacency.mem_edges_iff_on]
  constructor
  · exact fun member => ⟨t.symbol, member⟩
  · rintro ⟨x, member⟩
    rwa [h.filed x t member]

theorem detach (h : side.Kept number index) (member : t ∈ index.edges) :
    ∃ rest, index.detach t = some rest ∧ side.Kept number rest ∧
      ∀ x, rest.on x = if x = t.symbol then (index.on x).erase t else index.on x := by
  obtain ⟨rest, found, tight, on_rest⟩ :=
    Adjacency.detach_of_mem (h.mem_on_iff.mpr member) h.tight
  refine ⟨rest, found, ⟨tight, h.filed.detach found, fun u left => ?_⟩, on_rest⟩
  obtain ⟨x, left⟩ := Adjacency.mem_edges_iff_on.mp left
  exact h.here u (Adjacency.mem_edges_of_mem_on (Adjacency.mem_on_of_detach found left))

theorem detach_eq_none (h : side.Kept number index) (missing : t ∉ index.edges) :
    index.detach t = none := by
  rw [Adjacency.detach, if_neg (mt h.mem_on_iff.mp missing)]

end Side.Kept

/-- Both indices are as calls leave them. -/
def Kept (q : State) : Prop := ∀ side : Side, side.Kept q.id (side.index q)

namespace Kept

variable {q : State} {side : Side} {index : Adjacency}

theorem fresh (id : StateId) (name : String) (kind : Kind) : Kept { id, name, kind } := by
  intro side
  cases side <;> exact .empty _ id

theorem put (h : q.Kept) (kept : side.Kept q.id index) : (side.put index q).Kept := by
  intro other
  rw [Side.id_put]
  by_cases same : other = side
  · rwa [same, Side.index_put]
  · rw [Side.index_put_other same]
    exact h other

end Kept

/-! ### What one call does -/

namespace Call

/-- The index that a call is about. -/
def side? : Call → Option Side
  | add side _ => some side
  | remove side _ => some side
  | promote => none

/-- What a call that succeeds makes of the list for one symbol in one index. It appends, or takes out
the first transition that is equal, and leaves the other lists as they are. -/
def replay (side : Side) (x : Symbol) (ts : List Transition) : Call → List Transition
  | add there t => if there = side ∧ x = t.symbol then ts ++ [t] else ts
  | remove there t => if there = side ∧ x = t.symbol then ts.erase t else ts
  | promote => ts

/-- What a call that succeeds makes of a state. -/
structure Makes (call : Call) (q r : State) : Prop where
  kept : r.Kept
  id : r.id = q.id
  name : r.name = q.name
  kind : r.kind = if call = promote then .accepting else q.kind
  on_eq : ∀ side x, (side.index r).on x = call.replay side x ((side.index q).on x)
  apart : ∀ side, call.side? ≠ some side → side.index r = side.index q

variable {call : Call} {q r : State} {side : Side} {t : Transition} {rest : Adjacency}

theorem replay_other (differ : call.side? ≠ some side) (x : Symbol) (ts : List Transition) :
    call.replay side x ts = ts := by
  cases call with
  | add there t => exact if_neg fun h => differ (congrArg some h.1)
  | remove there t => exact if_neg fun h => differ (congrArg some h.1)
  | promote => rfl

/-- A call that writes the replayed lists to its own index makes what it should. -/
theorem makes_put (about : call.side? = some side) (h : q.Kept) (kept : side.Kept q.id rest)
    (on_rest : ∀ x, rest.on x = call.replay side x ((side.index q).on x)) :
    call.Makes q (side.put rest q) where
  kept := h.put kept
  id := side.id_put rest q
  name := side.name_put rest q
  kind := by
    have other : call ≠ promote := by
      rintro rfl
      cases about
    rw [if_neg other, side.kind_put]
  on_eq other x := by
    by_cases same : other = side
    · rw [same, Side.index_put, on_rest]
    · rw [Side.index_put_other same, replay_other]
      rw [about]
      exact fun h => same (Option.some.inj h).symm
  apart other differ := by
    refine Side.index_put_other (fun same => ?_) rest q
    rw [same] at differ
    exact differ about

theorem perform_add (h : q.Kept) (here : side.here t = q.id) :
    ∃ r, (add side t).perform q = ⟨r, [], .ok ()⟩ ∧ (add side t).Makes q r := by
  refine ⟨_, Side.add_here here, makes_put rfl h ((h side).attach here) fun x => ?_⟩
  rw [Adjacency.on_attach, replay]
  simp only [true_and]

theorem perform_remove (h : q.Kept) (here : side.here t = q.id)
    (member : t ∈ (side.index q).edges) :
    ∃ r, (remove side t).perform q = ⟨r, [], .ok ()⟩ ∧ (remove side t).Makes q r := by
  obtain ⟨rest, found, kept, on_rest⟩ := (h side).detach member
  refine ⟨_, Side.remove_found here found, makes_put rfl h kept fun x => ?_⟩
  rw [on_rest, replay]
  simp only [true_and]

theorem makes_promote (h : q.Kept) : promote.Makes q q.promote.1 where
  kept side := by cases side <;> exact h _
  id := rfl
  name := rfl
  kind := rfl
  on_eq side x := by cases side <;> rfl
  apart side _ := by cases side <;> rfl

/-- Why a call fails: the transition does not end where it should, or it is not there. -/
inductive Refused (q : State) : Call → Error → Prop
  | add (side : Side) (t : Transition) (elsewhere : side.here t ≠ q.id) :
      Refused q (.add side t) (side.mismatch q t)
  | remove (side : Side) (t : Transition) (elsewhere : side.here t ≠ q.id) :
      Refused q (.remove side t) (side.mismatch q t)
  | missing (side : Side) (t : Transition) (here : side.here t = q.id)
      (missing : t ∉ (side.index q).edges) :
      Refused q (.remove side t) (.notRecorded q.name t.text)

theorem perform_cases (h : q.Kept) (call : Call) :
    (∃ e, call.perform q = ⟨q, [], .error e⟩ ∧ ∀ f, Refused q call f ↔ f = e) ∨
      ∃ r, call.perform q = ⟨r, [], .ok ()⟩ ∧ call.Makes q r ∧ ∀ f, ¬ Refused q call f := by
  cases call with
  | add side t =>
    by_cases here : side.here t = q.id
    · obtain ⟨r, ran, made⟩ := perform_add h here
      refine .inr ⟨r, ran, made, fun f refused => ?_⟩
      cases refused
      contradiction
    · refine .inl ⟨_, Side.add_elsewhere here, fun f => ⟨fun refused => ?_, ?_⟩⟩
      · cases refused
        rfl
      · rintro rfl
        exact .add side t here
  | remove side t =>
    by_cases here : side.here t = q.id
    · by_cases member : t ∈ (side.index q).edges
      · obtain ⟨r, ran, made⟩ := perform_remove h here member
        refine .inr ⟨r, ran, made, fun f refused => ?_⟩
        cases refused <;> contradiction
      · refine .inl ⟨_, Side.remove_missing here ((h side).detach_eq_none member), fun f =>
          ⟨fun refused => ?_, ?_⟩⟩
        · cases refused
          · contradiction
          · rfl
        · rintro rfl
          exact .missing side t here member
    · refine .inl ⟨_, Side.remove_elsewhere here, fun f => ⟨fun refused => ?_, ?_⟩⟩
      · cases refused
        · rfl
        · contradiction
      · rintro rfl
        exact .remove side t here
  | promote =>
    refine .inr ⟨_, rfl, makes_promote h, fun f refused => ?_⟩
    cases refused

/-- What one call answers and what it changes. -/
structure Answers (call : Call) (q : State) : Prop where
  refused : ∀ e : Error, (call.perform q).result = .error e ↔ call.Refused q e
  unchanged : ∀ e : Error, (call.perform q).result = .error e → (call.perform q).final = q
  apart : ∀ side : Side, call.side? ≠ some side →
    side.index (call.perform q).final = side.index q
  same : (call.perform q).final.id = q.id ∧ (call.perform q).final.name = q.name
  kind : (call.perform q).final.kind = if call = promote then .accepting else q.kind

theorem answers (h : q.Kept) (call : Call) : call.Answers q := by
  rcases call.perform_cases h with ⟨f, failed, only⟩ | ⟨r, ran, made, fine⟩
  · have other : call ≠ promote := by
      rintro rfl
      cases (only f).mpr rfl
    constructor
    case refused => simp only [failed, only, Except.error.injEq, eq_comm, implies_true]
    case unchanged => exact fun _ _ => by rw [failed]
    case apart => exact fun _ _ => by rw [failed]
    case same =>
      rw [failed]
      exact ⟨rfl, rfl⟩
    case kind => rw [failed, if_neg other]
  · constructor
    case refused => simp only [ran, fine, reduceCtorEq, implies_true]
    case unchanged =>
      intro e failed
      rw [ran] at failed
      cases failed
    case apart =>
      rw [ran]
      exact made.apart
    case same =>
      rw [ran]
      exact ⟨made.id, made.name⟩
    case kind =>
      rw [ran]
      exact made.kind

end Call

/-! ### Histories -/

variable {q : State}

/-- The lists of a state after a history of calls are replayed from those before it. -/
structure Replays (q : State) (history : List Call) (r : State) : Prop where
  kept : r.Kept
  id : r.id = q.id
  name : r.name = q.name
  on_eq : ∀ side x, (side.index r).on x =
    (succeeding q history).foldl (Call.replay side x) ((side.index q).on x)

theorem Kept.run (h : q.Kept) (history : List Call) : Replays q history (run q history) := by
  induction history generalizing q with
  | nil => exact ⟨h, rfl, rfl, fun _ _ => rfl⟩
  | cons call rest ih =>
    -- A call that fails leaves the state, so it can be left out; one that succeeds is replayed first.
    rcases call.perform_cases h with ⟨e, failed, _⟩ | ⟨r, ran, made, _⟩
    · have left : succeeding q (call :: rest) = succeeding q rest := by
        simp only [succeeding, failed]
      have onward : run q (call :: rest) = run q rest := by
        rw [State.run, List.foldl_cons, failed, State.run]
      rw [onward]
      exact { ih h with on_eq := by rw [left]; exact (ih h).on_eq }
    · have left : succeeding q (call :: rest) = call :: succeeding r rest := by
        simp only [succeeding, ran]
      have onward : run q (call :: rest) = run r rest := by
        rw [State.run, List.foldl_cons, ran, State.run]
      have later := ih made.kept
      rw [onward]
      refine ⟨later.kept, later.id.trans made.id, later.name.trans made.name, fun side x => ?_⟩
      rw [left, List.foldl_cons, later.on_eq, made.on_eq]

/-- The indices of a state after a history of calls from a fresh state on, and what one more call
does. -/
structure Account (fresh : State) (history : List Call) (q : State) : Prop where
  id : q.id = fresh.id
  name : q.name = fresh.name
  on_eq : ∀ side x, (side.index q).on x =
    (succeeding fresh history).foldl (Call.replay side x) []
  tight : ∀ side : Side, ∀ e ∈ (side.index q).entries, e.2 ≠ []
  filed : ∀ side : Side, ∀ e ∈ (side.index q).entries, ∀ t ∈ e.2,
    t.symbol = e.1 ∧ side.here t = fresh.id
  answers : ∀ call : Call, call.Answers q
  performed : ∀ op : Operation, op.call.perform q =
    match q.perform op with
    | .ok r => ⟨r, [], .ok ()⟩
    | .error e => ⟨q, [], .error e⟩

theorem Replays.account {fresh : State} {history : List Call} (h : Replays fresh history q)
    (bare : ∀ side : Side, side.index fresh = ∅) : Account fresh history q where
  id := h.id
  name := h.name
  on_eq side x := by
    rw [h.on_eq, bare]
    rfl
  tight side := (h.kept side).tight
  filed side e entry t member := by
    have there : t ∈ (side.index q).on e.1 := by
      rwa [Adjacency.on_of_get? (SymbolMap.mem_entries_iff.mp entry)]
    refine ⟨(h.kept side).filed e.1 t there, ?_⟩
    rw [(h.kept side).here t (Adjacency.mem_edges_of_mem_on there), h.id]
  answers call := call.answers h.kept
  performed op := perform_call op q

/-- Whatever calls are made on a fresh state, its indices are ordered multisets. -/
theorem run_account (id : StateId) (name : String) (kind : Kind) (history : List Call) :
    Account { id, name, kind } history (run { id, name, kind } history) :=
  ((Kept.fresh id name kind).run history).account fun side => by cases side <;> rfl

/-- Of equal transitions the first one goes, and calls that fail leave no trace. -/
example (t u : Transition) (ht : t = ⟨0, .letter "x", 1⟩) (hu : u = ⟨0, .letter "x", 2⟩) :
    (run { id := 0, name := "q" } [.add .outbound t, .add .inbound u, .add .outbound u,
      .remove .inbound t, .add .outbound t, .remove .outbound t]).outbound.on (.letter "x") =
      [u, t] := by
  subst ht hu
  decide

end Nfa.State
end FiniteAutomata
