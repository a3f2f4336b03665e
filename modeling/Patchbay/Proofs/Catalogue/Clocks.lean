import Patchbay.Catalogue
import Patchbay.Proofs.Device
import Patchbay.Proofs.Engine.Outbox
import Patchbay.Proofs.Queue

/-!
# Clocks

A `metro` and a `delay` remember the event that they have scheduled for themselves. This memory and
the queue are two books on the same thing. `Tallies` says that the books agree, and each reaction of
such a unit leaves them so: whatever it receives (`leaves_receive`), and when its event has been taken
from the queue and is handed back to it (`leaves_emit`). Until it is set going, it sends nothing
(`sends_receive`).
-/

namespace Patchbay

open Catalogue

/-! ## What scripts leave -/

/-- Whether the script of a unit, carried out on a queue, leaves its result and the queue with a
property. -/
def Script.Leaves {α : Type} (id : UnitId) (P : α → Queue → Prop) : Script α → Queue → Prop
  | .done a, q => P a q
  | .send _ _ next, q => next.Leaves id P q
  | .sendTo _ _ next, q => next.Leaves id P q
  | .schedule outlet message next, q =>
    (next (q.insert id outlet message).1).Leaves id P (q.insert id outlet message).2
  | .cancel outlet event next, q =>
    (next (q.find? id outlet event).isSome).Leaves id P (q.remove id outlet event)
  | .report _ _ next, q => next.Leaves id P q

section Leaves

variable {α β : Type} {id : UnitId} {P Q : α → Queue → Prop} {script : Script α} {q : Queue}

theorem Script.Leaves.mono (h : script.Leaves id P q) (hPQ : ∀ a q, P a q → Q a q) :
    script.Leaves id Q q := by
  induction script generalizing q with
  | done a => exact hPQ a q h
  | send _ _ _ ih | sendTo _ _ _ ih | report _ _ _ ih => exact ih h
  | schedule _ _ _ ih | cancel _ _ _ ih => exact ih _ h

theorem Script.Leaves.bind {P : β → Queue → Prop} {f : α → Script β}
    (h : script.Leaves id (fun a q => (f a).Leaves id P q) q) :
    (script >>= f).Leaves id P q := by
  induction script generalizing q with
  | done a => exact h
  | send _ _ _ ih | sendTo _ _ _ ih | report _ _ _ ih => exact ih h
  | schedule _ _ _ ih | cancel _ _ _ ih => exact ih _ h

theorem Script.Leaves.map {P : β → Queue → Prop} {f : α → β}
    (h : script.Leaves id (fun a q => P (f a) q) q) : (f <$> script).Leaves id P q := by
  induction script generalizing q with
  | done a => exact h
  | send _ _ _ ih | sendTo _ _ _ ih | report _ _ _ ih => exact ih h
  | schedule _ _ _ ih | cancel _ _ _ ih => exact ih _ h

/-- What becomes of a result is no business of what is sent. -/
theorem Script.sends_map (f : α → β) (script : Script α) (id : UnitId) (q : Queue) :
    (f <$> script).sends id q = script.sends id q := by
  induction script generalizing q with
  | done a => rfl
  | send outlet message next ih => exact congrArg (List.cons _) (ih q)
  | sendTo name message next ih => exact congrArg (List.cons _) (ih q)
  | report severity text next ih => exact ih q
  | schedule _ _ _ ih | cancel _ _ _ ih => exact ih _ _

end Leaves

/-! ## The two books -/

/-- That the events of a unit tally with the one that it remembers: there is no other event, and this
one is there if the books are `whole`. -/
structure Tallies (whole : Prop) (events : List Event) (pending : Option EventId) : Prop where
  known : (events.map Event.id).Sublist pending.toList
  outlets : ∀ event ∈ events, event.outlet = 0
  all : whole → events.map Event.id = pending.toList

namespace Tallies

variable {whole : Prop} {events : List Event} {pending : Option EventId} {event : Event}

theorem mono {whole' : Prop} (h : Tallies whole events pending) (hw : whole' → whole) :
    Tallies whole' events pending := ⟨h.known, h.outlets, fun h' => h.all (hw h')⟩

theorem nil (h : whole → pending = none) : Tallies whole [] pending where
  known := List.nil_sublist _
  outlets _ h := by cases h
  all hwhole := by rw [h hwhole]; rfl

theorem singleton (h : event.outlet = 0) : Tallies whole [event] (some event.id) where
  known := .refl _
  outlets e he := by rw [List.mem_singleton.1 he, h]
  all _ := rfl

theorem eq_nil (h : Tallies whole events none) : events = [] :=
  List.map_eq_nil_iff.1 (List.sublist_nil.1 h.known)

/-- An event that is there is the only one, and is remembered. -/
theorem eq_of_mem (h : Tallies whole events pending) (he : event ∈ events) :
    events = [event] ∧ pending = some event.id := by
  cases pending with
  | none =>
    rw [h.eq_nil] at he
    cases he
  | some id =>
    rcases List.sublist_singleton.1 h.known with hnil | hone
    · rw [List.map_eq_nil_iff.1 hnil] at he
      cases he
    · obtain ⟨e, rfl, hid⟩ := List.map_eq_singleton_iff.1 hone
      rw [List.mem_singleton.1 he, hid]
      exact ⟨rfl, rfl⟩

/-- What is remembered can be cancelled, and then nothing is left. -/
theorem cancelled {q : Queue} {x : UnitId} {id : EventId}
    (h : Tallies whole (q.eventsFor x) (some id)) : (q.remove x 0 id).eventsFor x = [] := by
  rw [Queue.eventsFor_remove]
  cases hevents : q.eventsFor x with
  | nil => rfl
  | cons event rest =>
    have hmem : event ∈ q.eventsFor x := by
      rw [hevents]
      exact List.mem_cons_self
    obtain ⟨hone, hid⟩ := h.eq_of_mem hmem
    have htarget : event.target = x := (Queue.mem_eventsFor.1 hmem).2
    have hthis : Queue.isEvent x 0 id event = true := by
      simp [Queue.isEvent, Option.some.inj hid, htarget, h.outlets event hmem]
    rw [← hevents, hone, List.eraseP_cons_of_pos hthis]

end Tallies

/-! ## Metro and delay -/

namespace Catalogue

section Clocks

variable {whole : Prop} {q : Queue} {x : UnitId}

theorem Metro.leaves_stop (u : Metro) (h : Tallies whole (q.eventsFor x) u.pending) :
    u.stop.Leaves x (fun v q => q.eventsFor x = [] ∧ v.pending = none) q := by
  unfold Metro.stop
  split
  · next id hid =>
    rw [hid] at h
    exact ⟨h.cancelled, rfl⟩
  · next hnone =>
    rw [hnone] at h
    exact ⟨h.eq_nil, hnone⟩

theorem Delay.leaves_stop (u : Delay) (h : Tallies whole (q.eventsFor x) u.pending) :
    u.stop.Leaves x (fun v q => q.eventsFor x = [] ∧ v.pending = none) q := by
  unfold Delay.stop
  split
  · next id hid =>
    rw [hid] at h
    exact ⟨h.cancelled, rfl⟩
  · next hnone =>
    rw [hnone] at h
    exact ⟨h.eq_nil, hnone⟩

/-- An event that is scheduled where there was none can be remembered. -/
theorem tallies_insert (h : q.eventsFor x = []) (message : Message) :
    Tallies whole ((q.insert x 0 message).2.eventsFor x) (some (q.insert x 0 message).1) := by
  have hperm := q.eventsFor_insert x 0 message
  rw [h] at hperm
  rw [List.perm_singleton.1 hperm]
  exact .singleton rfl

theorem Metro.leaves_tick (u : Metro) (time : Float) (h : q.eventsFor x = []) :
    (u.tick time).Leaves x (fun v q => Tallies whole (q.eventsFor x) v.pending) q :=
  tallies_insert h _

end Clocks

/-! ### What they do with a message -/

section Messages

variable {message : Message}

theorem Metro.receive_of_starts (u : Metro) (h : Metro.starts? message = some true) :
    u.receive 0 message = u.stop >>= fun v => v.tick message.timestamp := by
  simp only [Metro.receive, h]

theorem Metro.receive_of_halts (u : Metro) (h : Metro.starts? message = some false) :
    u.receive 0 message = u.stop := by
  simp only [Metro.receive, h]

theorem Metro.receive_of_unclear (u : Metro) (h : Metro.starts? message = none) :
    u.receive 0 message = .done u := by
  simp only [Metro.receive, h]
  rfl

/-- A new interval changes neither the clock nor the queue. -/
theorem Metro.receive_interval (u : Metro) (message : Message) :
    u.receive 1 message =
      .done { u with interval := ((message.floatAt 0).map widen).getD u.interval } := by
  cases h : message.floatAt 0 <;> simp only [Metro.receive, h] <;> rfl

theorem Delay.receive_wait {wait : Float32} (u : Delay) (h : message.floatAt 0 = some wait) :
    u.receive 1 message = u.stop >>= fun v => .done { v with delay := widen wait } := by
  simp only [Delay.receive, h]
  rfl

theorem Delay.receive_of_unclear (u : Delay) (h : message.floatAt 0 = none) :
    u.receive 1 message = .done u := by
  simp only [Delay.receive, h]
  rfl

end Messages
end Catalogue

namespace CatalogueUnit

/-- What a `metro` or a `delay` remembers. -/
def clock? : CatalogueUnit → Option (Option EventId)
  | metro u => some u.pending
  | delay u => some u.pending
  | _ => none

/-- Whether a message at an inlet sets a `metro` or a `delay` going or else stops it. -/
def order? (u : CatalogueUnit) (inlet : Nat) (message : Message) : Option Bool :=
  match u, inlet with
  | metro _, 0 => Metro.starts? message
  | delay _, 0 => some (!(message.atoms.isEmpty || message.hasSelector "stop"))
  | delay _, 1 => (message.floatAt 0).map fun _ => false
  | _, _ => none

theorem order?_metro (u v : Metro) : (metro u).order? = (metro v).order? := by
  funext inlet message
  match inlet with
  | 0 | _ + 1 => rfl

theorem order?_delay (u v : Delay) : (delay u).order? = (delay v).order? := by
  funext inlet message
  match inlet with
  | 0 | 1 | _ + 2 => rfl

/-- What an order leaves a clock to remember: one to stop leaves nothing, and what is no order leaves
what there was. -/
def Obeys (order : Option Bool) (before after : Option EventId) : Prop :=
  (order = some false → after = none) ∧ (order = none → after = before)

section Reactions

variable {whole : Prop} {q : Queue} {x : UnitId} {pending : Option EventId}

theorem obeys_start (before after : Option EventId) : Obeys (some true) before after :=
  ⟨fun h => (by cases h), fun h => by cases h⟩

/-- A clock that has been stopped has no events, and remembers none. -/
theorem tallies_stopped {after : Option EventId} (h : q.eventsFor x = [] ∧ after = none)
    (before : Option EventId) :
    Tallies whole (q.eventsFor x) after ∧ Obeys (some false) before after := by
  rw [h.1]
  exact ⟨.nil fun _ => h.2, fun _ => h.2, fun h => by cases h⟩

/-- What is no order changes nothing in the books. -/
theorem tallies_unordered (h : Tallies whole (q.eventsFor x) pending) :
    Tallies (whole ∨ (none : Option Bool).isSome = true) (q.eventsFor x) pending ∧
      Obeys none pending pending :=
  ⟨h.mono fun hw => hw.resolve_right Bool.false_ne_true, fun h => (by cases h), fun _ => rfl⟩

theorem leaves_receive_metro (u : Metro) (inlet : Nat) (message : Message)
    (h : Tallies whole (q.eventsFor x) u.pending) :
    (u.receive inlet message).Leaves x (fun v q =>
      Tallies (whole ∨ ((metro u).order? inlet message).isSome = true) (q.eventsFor x) v.pending ∧
      Obeys ((metro u).order? inlet message) u.pending v.pending) q := by
  match inlet with
  | 0 =>
    have horder : (metro u).order? 0 message = Metro.starts? message := rfl
    rw [horder]
    cases hstarts : Metro.starts? message with
    | none =>
      rw [u.receive_of_unclear hstarts]
      exact tallies_unordered h
    | some start =>
      cases start with
      | true =>
        rw [u.receive_of_starts hstarts]
        apply Script.Leaves.bind
        apply (u.leaves_stop h).mono
        intro v q hstopped
        apply (v.leaves_tick message.timestamp hstopped.1).mono
        intro w q hticks
        exact ⟨hticks, obeys_start _ _⟩
      | false =>
        rw [u.receive_of_halts hstarts]
        apply (u.leaves_stop h).mono
        intro v q hstopped
        exact tallies_stopped hstopped _
  | 1 =>
    rw [u.receive_interval]
    exact tallies_unordered h
  | _ + 2 => exact tallies_unordered h

theorem leaves_receive_delay (u : Delay) (inlet : Nat) (message : Message)
    (h : Tallies whole (q.eventsFor x) u.pending) :
    (u.receive inlet message).Leaves x (fun v q =>
      Tallies (whole ∨ ((delay u).order? inlet message).isSome = true) (q.eventsFor x) v.pending ∧
      Obeys ((delay u).order? inlet message) u.pending v.pending) q := by
  match inlet with
  | 0 =>
    apply Script.Leaves.bind
    apply (u.leaves_stop h).mono
    intro v q hstopped
    show Script.Leaves x (fun (v : Delay) q => Tallies (whole ∨ true = true) _ _ ∧
      Obeys (some (!(message.atoms.isEmpty || message.hasSelector "stop"))) u.pending v.pending) _ q
    split
    · next hhalt =>
      rw [(Bool.or_eq_true ..).mpr hhalt]
      exact tallies_stopped hstopped _
    · next hgo =>
      rw [Bool.eq_false_iff.2 (mt (Bool.or_eq_true ..).mp hgo)]
      exact ⟨tallies_insert hstopped.1 _, obeys_start _ _⟩
  | 1 =>
    have horder : (delay u).order? 1 message = (message.floatAt 0).map fun _ => false := rfl
    rw [horder]
    cases hwait : message.floatAt 0 with
    | none =>
      rw [u.receive_of_unclear hwait]
      exact tallies_unordered h
    | some wait =>
      rw [u.receive_wait hwait]
      apply Script.Leaves.bind
      apply (u.leaves_stop h).mono
      intro v q hstopped
      exact tallies_stopped hstopped _
  | _ + 2 => exact tallies_unordered h

/-- Whatever a clock receives, its books still agree, and it has done what it was ordered to do. After
an order they are whole. -/
theorem leaves_receive {u : CatalogueUnit} (hu : u.clock? = some pending)
    (h : Tallies whole (q.eventsFor x) pending) (inlet : Nat) (message : Message)
    (here : Surroundings) :
    (u.receive inlet message here).Leaves x (fun v q => v.order? = u.order? ∧
      ∃ after, v.clock? = some after ∧
        Tallies (whole ∨ (u.order? inlet message).isSome = true) (q.eventsFor x) after ∧
        Obeys (u.order? inlet message) pending after) q := by
  unfold clock? at hu
  split at hu
  · next u =>
    cases hu
    apply Script.Leaves.map
    apply (leaves_receive_metro u inlet message h).mono
    intro v q hv
    exact ⟨order?_metro v u, v.pending, rfl, hv⟩
  · next u =>
    cases hu
    apply Script.Leaves.map
    apply (leaves_receive_delay u inlet message h).mono
    intro v q hv
    exact ⟨order?_delay v u, v.pending, rfl, hv⟩
  · cases hu

/-- When the only event of a clock has been taken from the queue and is handed back to it, its books
agree again. -/
theorem leaves_emit {u : CatalogueUnit} (hu : u.clock? = some pending) (h : q.eventsFor x = [])
    (outlet : Nat) (message : Message) :
    (u.emit outlet message).Leaves x (fun v q => v.order? = u.order? ∧
      ∃ after, v.clock? = some after ∧ Tallies whole (q.eventsFor x) after) q := by
  unfold clock? at hu
  split at hu
  · next u =>
    apply Script.Leaves.map
    apply (u.leaves_tick message.timestamp h).mono
    intro v q hv
    exact ⟨order?_metro v u, v.pending, rfl, hv⟩
  · next u =>
    apply Script.Leaves.map
    show _ ∧ ∃ after, some none = some after ∧ Tallies whole (q.eventsFor x) after
    rw [h]
    exact ⟨order?_delay _ u, none, rfl, .nil fun _ => rfl⟩
  · cases hu

end Reactions

/-! ## Silence -/

section Silence

variable {x : UnitId} {q : Queue}

theorem sends_stop_metro (u : Metro) (x : UnitId) (q : Queue) : u.stop.sends x q = [] := by
  unfold Metro.stop
  split <;> rfl

theorem sends_receive_metro (u : Metro) {inlet : Nat} {message : Message}
    (h : (metro u).order? inlet message ≠ some true) : (u.receive inlet message).sends x q = [] := by
  match inlet with
  | 0 =>
    cases hstarts : Metro.starts? message with
    | none =>
      rw [u.receive_of_unclear hstarts]
      rfl
    | some start =>
      cases start with
      | true => exact absurd hstarts h
      | false =>
        rw [u.receive_of_halts hstarts]
        exact sends_stop_metro u x q
  | 1 =>
    rw [u.receive_interval]
    rfl
  | _ + 2 => rfl

/-- A `delay` sends nothing but its bang when that is due. -/
theorem sends_receive_delay (u : Delay) (inlet : Nat) (message : Message) :
    (u.receive inlet message).sends x q = [] := by
  unfold Delay.receive Delay.stop
  split
  · split <;> split <;> rfl
  · split
    · split <;> rfl
    · rfl
  · rfl

/-- A clock that receives anything but the order to go sends nothing. -/
theorem sends_receive {u : CatalogueUnit} (hu : u.clock?.isSome = true) {inlet : Nat}
    {message : Message} (h : u.order? inlet message ≠ some true) (here : Surroundings) :
    (u.receive inlet message here).sends x q = [] := by
  cases u with
  | metro u => exact (Script.sends_map ..).trans (sends_receive_metro u h)
  | delay u => exact (Script.sends_map ..).trans (sends_receive_delay u inlet message)
  | _ => cases hu

end Silence
end CatalogueUnit
end Patchbay
