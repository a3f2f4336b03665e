import Patchbay.Proofs.Queue

/-!
# The queue refines a stable priority queue

A `Waiting` keeps its events in the order of their insertion, and looks for the first that is due
whenever one is asked for. Whatever is asked of a queue (`Request`), it answers as such a list may
(`Waiting.Serves`), and what it holds is that list in order of time (`Queue.Shows`).
-/

namespace Patchbay

/-! ## Requests and answers -/

/-- What may be asked of a queue. -/
inductive Request where
  | insert (target : UnitId) (outlet : Nat) (message : Message)
  | remove (target : UnitId) (outlet : Nat) (id : EventId)
  | removeUnit (target : UnitId)
  | pop
  | popBefore (stop : Float)
  | clear

/-- What comes back. -/
inductive Answer where
  /-- An event has been inserted. -/
  | issued (id : EventId)
  /-- An event has been taken out, or there is none. -/
  | taken (event? : Option Event)
  /-- So many events have been dropped. -/
  | dropped (count : Nat)
  | done
deriving DecidableEq

/-- The number that an insertion has been answered with. -/
def Answer.issued? : Answer → Option EventId
  | .issued id => some id
  | _ => none

namespace Queue

/-- An event that has been taken out, and the queue that is left. -/
def takenFrom (q : Queue) : Option (Event × Queue) → Answer × Queue
  | some (e, q') => (.taken (some e), q')
  | none => (.taken none, q)

/-- Asks something of a queue. -/
def ask (q : Queue) : Request → Answer × Queue
  | .insert target outlet message =>
    let (id, q') := q.insert target outlet message
    (.issued id, q')
  | .remove target outlet id => (.taken (q.find? target outlet id), q.remove target outlet id)
  | .removeUnit target => (.dropped (q.countFor target), q.removeUnit target)
  | .pop => q.takenFrom q.pop?
  | .popBefore stop => q.takenFrom (q.popBefore? stop)
  | .clear => (.done, q.clear)

/-- The answers to one request after the other. -/
def answers (q : Queue) : List Request → List Answer
  | [] => []
  | r :: rs => (q.ask r).1 :: answers (q.ask r).2 rs

/-- The queue after one request after the other. -/
def after (q : Queue) : List Request → Queue
  | [] => q
  | r :: rs => after (q.ask r).2 rs

end Queue

/-- Events in the order of their insertion, and how many there have been. -/
structure Waiting where
  events : List Event := []
  issued : Nat := 0

namespace Waiting

/-- That an event is the one that is due first. -/
def IsFirst (w : Waiting) (e : Event) : Prop :=
  e ∈ w.events ∧ ∀ e' ∈ w.events, e' = e ∨ e.Before e'

/-- The events without one. -/
def without (w : Waiting) (e : Event) : Waiting := { w with events := w.events.erase e }

/-- How a request is answered, and what waits then. -/
inductive Answers (w : Waiting) : Request → Answer → Waiting → Prop
  /-- A new event waits behind the others, under the next number. -/
  | insert {target outlet message} :
      Answers w (.insert target outlet message) (.issued ⟨w.issued⟩)
        ⟨w.events ++ [⟨⟨w.issued⟩, target, outlet, Queue.due message⟩], w.issued + 1⟩
  | remove {target outlet id e} : e ∈ w.events → e.id = id → e.target = target → e.outlet = outlet →
      Answers w (.remove target outlet id) (.taken (some e)) (w.without e)
  /-- Nothing is removed if the event is not there, or is for another unit or outlet. -/
  | removeNone {target outlet id} :
      (∀ e ∈ w.events, ¬ (e.id = id ∧ e.target = target ∧ e.outlet = outlet)) →
      Answers w (.remove target outlet id) (.taken none) w
  | removeUnit {target} :
      Answers w (.removeUnit target) (.dropped (w.events.countP (·.target = target)))
        { w with events := w.events.filter (·.target ≠ target) }
  | pop {e} : w.IsFirst e → Answers w .pop (.taken (some e)) (w.without e)
  | popNone : w.events = [] → Answers w .pop (.taken none) w
  | popBefore {stop e} : w.IsFirst e → e.timestamp < stop →
      Answers w (.popBefore stop) (.taken (some e)) (w.without e)
  | popBeforeNone {stop} : (∀ e ∈ w.events, ¬ e.timestamp < stop) →
      Answers w (.popBefore stop) (.taken none) w
  | clear : Answers w .clear .done { w with events := [] }

/-- How one request after the other is answered. -/
inductive Serves : Waiting → List Request → List Answer → Waiting → Prop
  | nil {w} : Serves w [] [] w
  | cons {w w' w'' r a rs as} : w.Answers r a w' → Serves w' rs as w'' →
      Serves w (r :: rs) (a :: as) w''

end Waiting

/-! ## Refinement -/

namespace Queue

/-- That a queue holds what waits, in the order of its delivery. -/
structure Shows (q : Queue) (w : Waiting) : Prop extends q.Stable where
  pending : q.events.Perm w.events
  count : q.nextId = w.issued

variable {q q' : Queue} {w : Waiting} {e : Event} {target : UnitId} {outlet : Nat} {id : EventId}

theorem isEvent_iff : isEvent target outlet id e = true ↔
    e.id = id ∧ e.target = target ∧ e.outlet = outlet := by
  simp [isEvent, and_assoc]

/-- Taking out the event that was found is taking out that event. -/
theorem eraseP_eq_erase {p : Event → Bool} {events : List Event} (h : events.find? p = some e) :
    events.eraseP p = events.erase e := by
  induction events with
  | nil => cases h
  | cons e' events ih =>
    rw [List.find?_cons] at h
    rw [List.eraseP_cons, List.erase_cons]
    cases hp : p e' with
    | true =>
      rw [hp] at h
      cases h
      simp
    | false =>
      rw [hp] at h
      have hne : e' ≠ e := by
        rintro rfl
        exact absurd (List.find?_some h) (by simp [hp])
      simp [hne, ih h]

/-- Taking out the first event takes out what is due first. -/
theorem Shows.first (h : q.Shows w) {rest : List Event} (hq : q.events = e :: rest) :
    w.IsFirst e ∧ Shows { q with events := rest } (w.without e) := by
  have hsub : rest.Sublist q.events := hq ▸ List.sublist_cons_self e rest
  refine ⟨⟨h.pending.mem_iff.1 (hq ▸ List.mem_cons_self), fun e' he' => ?_⟩, ?_⟩
  · exact h.toStable.before_of_cons hq e' (h.pending.mem_iff.2 he')
  · refine ⟨h.toStable.of_sublist hsub le_rfl, ?_, h.count⟩
    have herase := h.pending.erase e
    rwa [hq, List.erase_cons_head] at herase

/-- One request is answered as it may be. -/
theorem answers_of_ask (h : q.Shows w) (r : Request) :
    ∃ w', w.Answers r (q.ask r).1 w' ∧ (q.ask r).2.Shows w' := by
  cases r with
  | insert target outlet message =>
    refine ⟨⟨w.events ++ [⟨⟨w.issued⟩, target, outlet, due message⟩], w.issued + 1⟩, ?_,
      stable_insert h.toStable target outlet message, ?_, ?_⟩
    · have hanswer : (q.ask (.insert target outlet message)).1 = .issued ⟨w.issued⟩ := by
        rw [← h.count]
        rfl
      rw [hanswer]
      exact .insert
    · rw [← h.count]
      exact ((insert_perm ..).trans (h.pending.cons _)).trans (List.perm_append_singleton _ _).symm
    · exact congrArg (· + 1) h.count
  | remove target outlet id =>
    cases hfind : q.find? target outlet id with
    | some e =>
      obtain ⟨hid, htarget, houtlet⟩ := isEvent_iff.1 (List.find?_some hfind)
      have hmem := h.pending.mem_iff.1 (List.mem_of_find?_eq_some hfind)
      refine ⟨w.without e, ?_, h.toStable.of_sublist (remove_sublist ..) le_rfl, ?_, h.count⟩
      · simp only [ask, hfind]
        exact .remove hmem hid htarget houtlet
      · show (q.events.eraseP _).Perm _
        rw [eraseP_eq_erase hfind]
        exact h.pending.erase e
    | none =>
      have hnone : ∀ e ∈ q.events, ¬ isEvent target outlet id e = true := List.find?_eq_none.1 hfind
      have hsame : q.remove target outlet id = q := by
        unfold remove
        rw [List.eraseP_of_forall_not hnone]
      simp only [ask, hfind, hsame]
      exact ⟨w, .removeNone fun e he heq =>
        hnone e (h.pending.mem_iff.2 he) (isEvent_iff.2 heq), h⟩
  | removeUnit target =>
    have hcount : q.countFor target = w.events.countP (·.target = target) := by
      simp only [countFor, beq_eq_decide]
      exact h.pending.countP_eq _
    refine ⟨{ w with events := w.events.filter (·.target ≠ target) }, ?_,
      h.toStable.of_sublist (removeUnit_sublist ..) le_rfl, ?_, h.count⟩
    · simp only [ask, hcount]
      exact .removeUnit
    · simp only [ask, removeUnit, bne, beq_eq_decide, ne_eq, decide_not]
      exact h.pending.filter _
  | pop =>
    cases hq : q.events with
    | nil =>
      refine ⟨w, ?_, ?_⟩
      · simp only [ask, pop?, hq, takenFrom]
        exact .popNone (List.nil_perm.1 (hq ▸ h.pending))
      · simpa only [ask, pop?, hq, takenFrom] using h
    | cons e rest =>
      obtain ⟨hfirst, hshows⟩ := h.first hq
      simp only [ask, pop?, hq, takenFrom]
      exact ⟨_, .pop hfirst, hshows⟩
  | popBefore stop =>
    cases hpop : q.popBefore? stop with
    | none =>
      have hlate := not_due_of_popBefore? h.toOrdered hpop
      simp only [ask, hpop, takenFrom]
      exact ⟨w, .popBeforeNone fun e he => hlate e (h.pending.mem_iff.2 he), h⟩
    | some popped =>
      obtain ⟨e, q'⟩ := popped
      obtain ⟨hq, hlt⟩ := popBefore?_eq_some hpop
      obtain ⟨hfirst, hshows⟩ := h.first hq
      simp only [ask, hpop, takenFrom]
      exact ⟨_, .popBefore hfirst hlt, stable_popBefore? h.toStable hpop, hshows.pending,
        (nextId_of_popBefore? hpop).trans h.count⟩
  | clear =>
    refine ⟨_, .clear, h.toStable.of_sublist (List.nil_sublist _) le_rfl, .nil, h.count⟩

theorem serves_of_shows (h : q.Shows w) (rs : List Request) :
    ∃ w', w.Serves rs (q.answers rs) w' ∧ (q.after rs).Shows w' := by
  induction rs generalizing q w with
  | nil => exact ⟨w, .nil, h⟩
  | cons r rs ih =>
    obtain ⟨w', hanswer, hshows⟩ := answers_of_ask h r
    obtain ⟨w'', hserves, hend⟩ := ih hshows
    exact ⟨w'', .cons hanswer hserves, hend⟩

/-! ## Numbers and removals -/

/-- Each insertion takes the next number, and nothing else takes one. -/
theorem issued_of_ask (q : Queue) (r : Request) :
    (q.ask r).1.issued? = none ∧ (q.ask r).2.nextId = q.nextId ∨
      (q.ask r).1.issued? = some ⟨q.nextId⟩ ∧ (q.ask r).2.nextId = q.nextId + 1 := by
  cases r with
  | insert target outlet message => exact .inr ⟨rfl, rfl⟩
  | remove target outlet id => exact .inl ⟨rfl, rfl⟩
  | removeUnit target => exact .inl ⟨rfl, rfl⟩
  | pop =>
    simp only [ask, pop?]
    cases q.events with
    | nil => exact .inl ⟨rfl, rfl⟩
    | cons e rest => exact .inl ⟨rfl, rfl⟩
  | popBefore stop =>
    simp only [ask, popBefore?]
    cases q.events with
    | nil => exact .inl ⟨rfl, rfl⟩
    | cons e rest =>
      by_cases hlt : e.timestamp < stop
      · simp [hlt, takenFrom, Answer.issued?]
      · simp [hlt, takenFrom, Answer.issued?]
  | clear => exact .inl ⟨rfl, rfl⟩

/-- Numbers only grow, so none is handed out again. -/
theorem issued_of_answers (q : Queue) (rs : List Request) :
    ((q.answers rs).filterMap Answer.issued?).Pairwise (·.value < ·.value) ∧
      ∀ id ∈ (q.answers rs).filterMap Answer.issued?, q.nextId ≤ id.value := by
  induction rs generalizing q with
  | nil => exact ⟨.nil, fun _ h => by cases h⟩
  | cons r rs ih =>
    obtain ⟨hgrow, hfrom⟩ := ih (q.ask r).2
    rcases issued_of_ask q r with ⟨hnone, hnext⟩ | ⟨hsome, hnext⟩
    · rw [hnext] at hfrom
      simp only [answers, List.filterMap_cons, hnone]
      exact ⟨hgrow, hfrom⟩
    · rw [hnext] at hfrom
      simp only [answers, List.filterMap_cons, hsome]
      refine ⟨List.pairwise_cons.2 ⟨hfrom, hgrow⟩, ?_⟩
      intro id hid
      rcases List.mem_cons.1 hid with rfl | hid
      · exact le_rfl
      · exact (Nat.le_succ _).trans (hfrom id hid)

/-- A number is that of one event at most, so removing the first that has it removes all. -/
theorem eraseP_eq_filter {events : List Event} (hids : (events.map Event.id).Nodup)
    (target : UnitId) (outlet : Nat) (id : EventId) :
    events.eraseP (isEvent target outlet id) =
      events.filter fun e => ¬ (e.id = id ∧ e.target = target ∧ e.outlet = outlet) := by
  induction events with
  | nil => rfl
  | cons e events ih =>
    obtain ⟨hnew, hids⟩ := List.nodup_cons.1 hids
    by_cases he : e.id = id ∧ e.target = target ∧ e.outlet = outlet
    · have hrest : ∀ e' ∈ events, ¬ (e'.id = id ∧ e'.target = target ∧ e'.outlet = outlet) := by
        intro e' he' heq
        apply hnew
        rw [he.1, ← heq.1]
        exact List.mem_map_of_mem he'
      rw [List.eraseP_cons_of_pos (isEvent_iff.2 he), List.filter_cons_of_neg (by simpa using he),
        List.filter_eq_self.2 fun e' he' => decide_eq_true (hrest e' he')]
    · rw [List.eraseP_cons_of_neg (mt isEvent_iff.1 he), ih hids, List.filter_cons,
        if_pos (decide_eq_true he)]

/-! ## Asking again and again -/

/-- A list with the elements of one kind in front is those elements and then the others. -/
theorem eq_filter_append_filter {p : Event → Prop} [DecidablePred p] {events : List Event}
    (h : events.Pairwise fun e e' => p e' → p e) :
    events = events.filter p ++ events.filter (¬ p ·) := by
  induction events with
  | nil => rfl
  | cons e events ih =>
    obtain ⟨hhead, htail⟩ := List.pairwise_cons.1 h
    by_cases hp : p e
    · simp only [List.filter_cons, hp, decide_true, if_true, List.cons_append, not_true, decide_false]
      exact congrArg (e :: ·) (ih htail)
    · have hnone : ∀ e' ∈ e :: events, ¬ p e' := by
        intro e' he'
        rcases List.mem_cons.1 he' with rfl | he'
        · exact hp
        · exact fun hp' => hp (hhead e' he' hp')
      rw [List.filter_eq_nil_iff.2 (by simpa using hnone), List.nil_append,
        List.filter_eq_self.2 (by simpa using hnone)]

/-- What is due is in front of what is not. -/
theorem Ordered.due_first (h : q.Ordered) (stop : Float) :
    q.events.Pairwise fun e e' => e'.timestamp < stop → e.timestamp < stop := by
  refine h.order.imp_of_mem fun {e e'} he _ hle hlt => ?_
  obtain ⟨-, hstop, hplace⟩ := Double.lt_iff.1 hlt
  exact Double.lt_iff.2 ⟨h.times e he, hstop, hle.trans_lt hplace⟩

/-- Each time, the first of the events that are due is taken, for as long as there is one. -/
theorem after_popBefore (h : q.Ordered) (stop : Float) (k : Nat) :
    (q.after (List.replicate k (.popBefore stop))).events =
      (q.events.filter (·.timestamp < stop)).drop k ++ q.events.filter (¬ ·.timestamp < stop) := by
  induction k generalizing q with
  | zero => exact eq_filter_append_filter (h.due_first stop)
  | succ k ih =>
    rw [List.replicate_succ]
    cases hpop : q.popBefore? stop with
    | none =>
      have hnone : q.events.filter (·.timestamp < stop) = [] :=
        List.filter_eq_nil_iff.2 (by simpa using not_due_of_popBefore? h hpop)
      simp only [after, ask, hpop, takenFrom, ih h, hnone, List.drop_nil]
    | some popped =>
      obtain ⟨e, q'⟩ := popped
      obtain ⟨hq, hlt⟩ := popBefore?_eq_some hpop
      simp only [after, ask, hpop, takenFrom, ih (ordered_popBefore? h hpop), hq, List.filter_cons, hlt,
        decide_true, if_true, List.drop_succ_cons, not_true, decide_false]
      rfl

/-! ## The queue -/

/-- Whatever has been asked of a queue, its answers are those of a list that is kept in the order of
insertion, and it holds what waits there in the order of delivery. No number is handed out twice,
removals leave the others in their order, and asking for what is due until there is none leaves
exactly what is not. -/
theorem refines_waiting (rs : List Request) :
    ∃ q w, ({} : Queue).after rs = q ∧ Waiting.Serves {} rs (({} : Queue).answers rs) w ∧ q.Shows w ∧
      ((({} : Queue).answers rs).filterMap Answer.issued?).Nodup ∧
      (∀ target outlet id, (q.remove target outlet id).events =
        q.events.filter fun e => ¬ (e.id = id ∧ e.target = target ∧ e.outlet = outlet)) ∧
      (∀ target, (q.removeUnit target).events = q.events.filter (·.target ≠ target)) ∧
      ∀ stop k, (q.after (List.replicate k (.popBefore stop))).events =
        (q.events.filter (·.timestamp < stop)).drop k ++ q.events.filter (¬ ·.timestamp < stop) := by
  obtain ⟨w, hserves, hshows⟩ := serves_of_shows (w := {}) ⟨stable_empty, .nil, rfl⟩ rs
  have hnodup : ((({} : Queue).answers rs).filterMap Answer.issued?).Nodup :=
    (issued_of_answers {} rs).1.imp fun hlt heq => (heq ▸ hlt).false
  refine ⟨_, w, rfl, hserves, hshows, hnodup, eraseP_eq_filter hshows.ids, fun target => ?_,
    after_popBefore hshows.toOrdered⟩
  simp only [removeUnit, bne, beq_eq_decide, ne_eq, decide_not]

/-- No number at all goes first, the two zeros keep the order in which they came, and what is due at
the end of a block stays. -/
example :
    let bang (time : Float) : Request := .insert ⟨0⟩ 0 (.bang time)
    ((({} : Queue).answers [bang 0, bang (-0.0), bang (0.0 / 0.0), bang 8, .popBefore 8, .popBefore 8,
        .popBefore 8, .popBefore 8]).filterMap fun
      | .taken event? => some (event?.map (·.id.value))
      | _ => none) = [some 2, some 0, some 1, none] := by
  decide +kernel

end Queue
end Patchbay
