import Patchbay.Proofs.Number.Order
import Patchbay.Proofs.Timeline
import Patchbay.Queue

/-!
# Queues in order of time

Every change of a queue keeps its events in order of time (`Ordered`), and events of one time in the
order in which they were inserted (`Stable`). So if the first event is not due, none is
(`not_due_of_popBefore?`). Inserting adds one event (`insert_perm`), cancelling adds none. What is done
for one unit leaves the events of all others alone (`eventsFor_insert_of_ne`).
-/

namespace Patchbay

/-- That an event is due before another: it is earlier, or it is not later and was inserted first. -/
def Event.Before (e e' : Event) : Prop :=
  e.timestamp < e'.timestamp ∨ e.timestamp ≤ e'.timestamp ∧ e.id.value < e'.id.value

namespace Queue

/-- That the events are in order of time, and each has a time. -/
structure Ordered (q : Queue) : Prop where
  times : ∀ e ∈ q.events, e.timestamp.isNaN = false
  order : q.events.Pairwise fun e e' => Double.place e.timestamp ≤ Double.place e'.timestamp

theorem ordered_empty : Ordered {} where
  times _ h := by cases h
  order := .nil

/-- What is left of a queue in order is in order. -/
theorem Ordered.of_sublist {q q' : Queue} (h : q.Ordered) (hs : q'.events.Sublist q.events) :
    q'.Ordered :=
  ⟨fun e he => h.times e (hs.subset he), h.order.sublist hs⟩

variable {q : Queue} {target : UnitId} {outlet : Nat}

/-- A queued message has a time. -/
theorem isNaN_due (message : Message) : (due message).timestamp.isNaN = false := by
  unfold due
  cases h : message.timestamp.isNaN with
  | true =>
    show earliest.isNaN = false
    decide +kernel
  | false => exact h

/-- A message with a time is queued as it is. -/
theorem due_eq {message : Message} (h : message.timestamp.isNaN = false) : due message = message := by
  rw [due, h]
  rfl

/-- Inserting a message adds an event. -/
theorem insert_perm (q : Queue) (target : UnitId) (outlet : Nat) (message : Message) :
    (q.insert target outlet message).2.events.Perm
      (⟨⟨q.nextId⟩, target, outlet, due message⟩ :: q.events) :=
  insertBehind_perm _ _ _

/-- Between events with a time, what an insertion goes by is the place of the time. -/
theorem le_timestamp_iff {events : List Event} {time : Float}
    (htimes : ∀ e ∈ events, e.timestamp.isNaN = false) (htime : time.isNaN = false) :
    ∀ e ∈ events, decide (e.timestamp ≤ time) = true ↔
      Double.place e.timestamp ≤ Double.place time := by
  intro e he
  rw [decide_eq_true_iff, Double.le_iff]
  exact ⟨fun hle => hle.2.2, fun hle => ⟨htimes e he, htime, hle⟩⟩

theorem ordered_insert (h : q.Ordered) (message : Message) :
    (q.insert target outlet message).2.Ordered := by
  have hdue := isNaN_due message
  unfold insert
  dsimp only
  generalize due message = message at hdue ⊢
  constructor
  · intro e he
    rcases mem_insertBehind.1 he with rfl | he
    · exact hdue
    · exact h.times e he
  · exact pairwise_insertBehind (le_timestamp_iff h.times hdue) h.order

theorem remove_sublist (q : Queue) (target : UnitId) (outlet : Nat) (id : EventId) :
    (q.remove target outlet id).events.Sublist q.events := List.eraseP_sublist

/-- An event that is not pending cannot be removed. -/
theorem remove_eq_self {q : Queue} {target : UnitId} {outlet : Nat} {id : EventId}
    (h : q.find? target outlet id = none) : q.remove target outlet id = q := by
  rw [remove, List.eraseP_of_forall_not fun event hevent => List.find?_eq_none.1 h event hevent]

theorem removeUnit_sublist (q : Queue) (target : UnitId) :
    (q.removeUnit target).events.Sublist q.events := List.filter_sublist

/-- Units that are gone have taken their events with them, and nothing else. -/
theorem foldl_removeUnit (gone : List UnitId) (q : Queue) :
    gone.foldl removeUnit q = { q with events := q.events.filter (·.target ∉ gone) } := by
  induction gone generalizing q with
  | nil => simp
  | cons x gone ih =>
    rw [List.foldl_cons, ih, removeUnit, List.filter_filter]
    refine congrArg (fun events => { q with events }) (List.filter_congr fun event _ => ?_)
    simp [bne, beq_eq_decide, Bool.and_comm]

/-- The next event that is due is the first. -/
theorem popBefore?_eq_some {stop : Float} {event : Event} {q' : Queue}
    (h : q.popBefore? stop = some (event, q')) :
    q.events = event :: q'.events ∧ event.timestamp < stop := by
  unfold popBefore? at h
  split at h
  · cases h
  · next e rest he =>
    split at h
    · next hlt =>
      cases h
      exact ⟨he, hlt⟩
    · cases h

theorem ordered_popBefore? {stop : Float} {event : Event} {q' : Queue} (h : q.Ordered)
    (hpop : q.popBefore? stop = some (event, q')) : q'.Ordered := by
  refine h.of_sublist ?_
  rw [(popBefore?_eq_some hpop).1]
  exact List.sublist_cons_self _ _

/-- If the first event is not due, none is. -/
theorem not_due_of_popBefore? {stop : Float} (h : q.Ordered) (hpop : q.popBefore? stop = none) :
    ∀ e ∈ q.events, ¬ e.timestamp < stop := by
  intro e he hlt
  unfold popBefore? at hpop
  split at hpop
  · next hnil =>
    rw [hnil] at he
    cases he
  · next first rest hcons =>
    split at hpop
    · cases hpop
    · next hfirst =>
      refine hfirst ?_
      have horder := h.order
      have htimes := h.times
      rw [hcons] at he horder htimes
      rcases List.mem_cons.1 he with rfl | he
      · exact hlt
      · obtain ⟨-, hstop, hplace⟩ := Double.lt_iff.1 hlt
        exact Double.lt_iff.2 ⟨htimes first List.mem_cons_self, hstop,
          ((List.pairwise_cons.1 horder).1 e he).trans_lt hplace⟩

/-! ## Order of delivery -/

/-- That the events are in the order of their delivery, and each has a number of its own. -/
structure Stable (q : Queue) : Prop extends q.Ordered where
  sorted : q.events.Pairwise Event.Before
  ids : (q.events.map Event.id).Nodup
  issued : ∀ e ∈ q.events, e.id.value < q.nextId

theorem stable_empty : Stable {} where
  toOrdered := ordered_empty
  sorted := .nil
  ids := .nil
  issued _ h := by cases h

section Stable

variable {q' : Queue} {stop : Float} {e : Event}

/-- What is left of a queue is as stable as it was. -/
theorem Stable.of_sublist (h : q.Stable) (hs : q'.events.Sublist q.events)
    (hid : q.nextId ≤ q'.nextId) : q'.Stable where
  toOrdered := h.toOrdered.of_sublist hs
  sorted := h.sorted.sublist hs
  ids := h.ids.sublist (hs.map _)
  issued e he := (h.issued e (hs.subset he)).trans_le hid

/-- A new event comes behind the events of its time, all of which have smaller numbers. -/
theorem Stable.sorted_insertBehind (h : q.Stable) (htime : e.timestamp.isNaN = false)
    (hnew : ∀ e' ∈ q.events, e'.id.value < e.id.value) :
    (insertBehind (·.timestamp ≤ e.timestamp) e q.events).Pairwise Event.Before := by
  have hkey := le_timestamp_iff h.times htime
  refine pairwise_insertBehind_of hkey h.order h.sorted ?_ ?_
  · intro e' he' hle
    exact .inr ⟨Double.le_iff.2 ⟨h.times e' he', htime, hle⟩, hnew e' he'⟩
  · intro e' he' hlt
    exact .inl (Double.lt_iff.2 ⟨htime, h.times e' he', hlt⟩)

theorem stable_insert (h : q.Stable) (target : UnitId) (outlet : Nat) (message : Message) :
    (q.insert target outlet message).2.Stable := by
  have hperm := q.insert_perm target outlet message
  refine ⟨ordered_insert h.toOrdered message, ?_, ?_, ?_⟩
  · exact h.sorted_insertBehind (e := ⟨⟨q.nextId⟩, target, outlet, due message⟩) (isNaN_due message)
      h.issued
  · rw [(hperm.map Event.id).nodup_iff, List.map_cons, List.nodup_cons]
    refine ⟨fun hmem => ?_, h.ids⟩
    obtain ⟨e, he, heq⟩ := List.mem_map.1 hmem
    have hlt := h.issued e he
    rw [heq] at hlt
    exact Nat.lt_irrefl _ hlt
  · intro e he
    rcases List.mem_cons.1 (hperm.mem_iff.1 he) with rfl | he
    · exact Nat.lt_succ_self _
    · exact (h.issued e he).trans (Nat.lt_succ_self _)

theorem nextId_of_popBefore? (hpop : q.popBefore? stop = some (e, q')) : q'.nextId = q.nextId := by
  unfold popBefore? at hpop
  grind

theorem stable_popBefore? (h : q.Stable) (hpop : q.popBefore? stop = some (e, q')) : q'.Stable := by
  refine h.of_sublist ?_ (nextId_of_popBefore? hpop).ge
  rw [(popBefore?_eq_some hpop).1]
  exact List.sublist_cons_self _ _

/-- What is first is before all others. -/
theorem Stable.before_of_cons {rest : List Event} (h : q.Stable) (hq : q.events = e :: rest) :
    ∀ e' ∈ q.events, e' = e ∨ e.Before e' := by
  intro e' he'
  have hsorted := h.sorted
  rw [hq] at he' hsorted
  rcases List.mem_cons.1 he' with rfl | he'
  · exact .inl rfl
  · exact .inr ((List.pairwise_cons.1 hsorted).1 e' he')

end Stable

/-! ## What is added -/

/-- That nothing has been added to a queue but events with a property. -/
def Adds (P : Event → Prop) (q q' : Queue) : Prop :=
  ∃ new : List Event, q'.events.Subperm (q.events ++ new) ∧ ∀ e ∈ new, P e

variable {P : Event → Prop} {q' q'' : Queue}

theorem Adds.refl (q : Queue) : q.Adds P q :=
  ⟨[], by rw [List.append_nil], fun _ h => by cases h⟩

theorem Adds.trans (h : q.Adds P q') (h' : q'.Adds P q'') : q.Adds P q'' := by
  obtain ⟨new, hsub, hnew⟩ := h
  obtain ⟨new', hsub', hnew'⟩ := h'
  refine ⟨new ++ new', ?_, List.forall_mem_append.2 ⟨hnew, hnew'⟩⟩
  rw [← List.append_assoc]
  exact hsub'.trans ((List.subperm_append_right new').2 hsub)

theorem Adds.of_sublist (h : q'.events.Sublist q.events) : q.Adds P q' :=
  ⟨[], by simpa using h.subperm, fun _ h => by cases h⟩

theorem adds_insert (message : Message) (h : ∀ id, P ⟨id, target, outlet, due message⟩) :
    q.Adds P (q.insert target outlet message).2 := by
  refine ⟨[⟨⟨q.nextId⟩, target, outlet, due message⟩], ?_, fun e he => ?_⟩
  · exact ((q.insert_perm target outlet message).trans (List.perm_append_singleton _ _).symm).subperm
  · rw [List.mem_singleton.1 he]
    exact h _

/-! ## The events of one unit -/

/-- The events for a unit, the one that is due first before all others. -/
def eventsFor (q : Queue) (target : UnitId) : List Event := q.events.filter (·.target == target)

section EventsFor

variable {other : UnitId}

theorem mem_eventsFor {event : Event} :
    event ∈ q.eventsFor target ↔ event ∈ q.events ∧ event.target = target := by
  simp [eventsFor]

theorem eventsFor_insert (q : Queue) (target : UnitId) (outlet : Nat) (message : Message) :
    ((q.insert target outlet message).2.eventsFor target).Perm
      (⟨⟨q.nextId⟩, target, outlet, due message⟩ :: q.eventsFor target) := by
  have h := (q.insert_perm target outlet message).filter (·.target == target)
  rwa [List.filter_cons_of_pos (by simp)] at h

theorem eventsFor_insert_of_ne (h : target ≠ other) (message : Message) :
    (q.insert target outlet message).2.eventsFor other = q.eventsFor other := by
  obtain ⟨front, back, hq, hins, -, -⟩ := insertBehind_split (·.timestamp ≤ (due message).timestamp)
    ⟨⟨q.nextId⟩, target, outlet, due message⟩ q.events
  show (insertBehind _ _ q.events).filter _ = q.events.filter _
  rw [hins, hq, List.filter_append, List.filter_append, List.filter_cons_of_neg]
  simpa using h

theorem eventsFor_remove (q : Queue) (target : UnitId) (outlet : Nat) (id : EventId) :
    (q.remove target outlet id).eventsFor target =
      (q.eventsFor target).eraseP (isEvent target outlet id) := by
  show (q.events.eraseP _).filter _ = (q.events.filter _).eraseP _
  rw [List.eraseP_filter]
  congr 2
  funext event
  cases h : isEvent target outlet id event with
  | false => rfl
  | true =>
    simp only [isEvent, Bool.and_eq_true] at h
    rw [h.1.2, Bool.and_true]

theorem eventsFor_remove_of_ne (h : target ≠ other) (id : EventId) :
    (q.remove target outlet id).eventsFor other = q.eventsFor other := by
  show (q.events.eraseP _).filter _ = q.events.filter _
  induction q.events with
  | nil => rfl
  | cons event events ih =>
    by_cases hevent : isEvent target outlet id event = true
    · rw [List.eraseP_cons_of_pos hevent, List.filter_cons_of_neg]
      simp only [isEvent, Bool.and_eq_true, beq_iff_eq] at hevent
      simpa [hevent.1.2] using h
    · rw [List.eraseP_cons_of_neg hevent, List.filter_cons, List.filter_cons, ih]

/-- The next event that is due is taken from the events of its unit. -/
theorem eventsFor_popBefore? {stop : Float} {event : Event} {q' : Queue}
    (hpop : q.popBefore? stop = some (event, q')) :
    q.eventsFor event.target = event :: q'.eventsFor event.target ∧
      ∀ other, event.target ≠ other → q.eventsFor other = q'.eventsFor other := by
  have hq := (popBefore?_eq_some hpop).1
  refine ⟨?_, fun other hother => ?_⟩
  · rw [eventsFor, hq, List.filter_cons_of_pos (by simp)]
    rfl
  · rw [eventsFor, hq, List.filter_cons_of_neg (by simpa using hother)]
    rfl

/-- Units that are gone have taken none but their own events with them. -/
theorem eventsFor_foldl_removeUnit {gone : List UnitId} (h : target ∉ gone) :
    (gone.foldl removeUnit q).eventsFor target = q.eventsFor target := by
  rw [foldl_removeUnit, eventsFor, eventsFor, List.filter_filter]
  refine List.filter_congr fun event _ => ?_
  by_cases ht : event.target = target
  · simp [ht, h]
  · simp [ht]

theorem eventsFor_foldl_insert {targets : List UnitId} (h : other ∉ targets) (message : Message) :
    (targets.foldl (fun q id => (q.insert id 0 message).2) q).eventsFor other = q.eventsFor other := by
  induction targets generalizing q with
  | nil => rfl
  | cons x targets ih =>
    obtain ⟨hx, htargets⟩ := not_or.1 (mt List.mem_cons.2 h)
    rw [List.foldl_cons, ih htargets, eventsFor_insert_of_ne (Ne.symm hx)]

end EventsFor
end Queue
end Patchbay
