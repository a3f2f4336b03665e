import Patchbay.Proofs.Engine.Delivery

/-!
# The outbox

What a unit sends waits in an outbox that all deliveries share. The messages of one script are those
behind a mark, deliveries nested deeper push theirs behind them and take them out again, and so the
outbox is of no account: every delivery leaves it as it was (`outbox_deliver`), does the same whatever
is in it (`unposted_deliver`), and dispatches what a unit sends (`Script.sends`) one message after
another (`flush_receive`).
-/

namespace Patchbay

variable {U : Type} [Device U]

/-- What a unit sends by a script, in order. The queue is what it schedules its events in. -/
def Script.sends {α : Type} (id : UnitId) : Script α → Queue → List Outgoing
  | .done _, _ => []
  | .send outlet message next, q =>
    { source := id, route := .outlet outlet, message } :: next.sends id q
  | .sendTo name message next, q =>
    { source := id, route := .named name, message } :: next.sends id q
  | .schedule outlet message next, q =>
    (next (q.insert id outlet message).1).sends id (q.insert id outlet message).2
  | .cancel outlet event next, q =>
    (next (q.find? id outlet event).isSome).sends id (q.remove id outlet event)
  | .report _ _ next, q => next.sends id q

/-- Whatever a script sends is among what it may send. -/
theorem Script.Posts.of_mem_sends {α : Type} {sent : Option Symbol → Message → Prop}
    {scheduled : Message → Prop} {script : Script α} (h : script.Posts sent scheduled) {id : UnitId}
    {q : Queue} {out : Outgoing} (hout : out ∈ script.sends id q) :
    out.source = id ∧ ((∃ outlet, out.route = .outlet outlet) ∧ sent none out.message ∨
      ∃ name, out.route = .named name ∧ sent (some name) out.message) := by
  induction script generalizing q with
  | done => cases hout
  | send outlet message next ih =>
    rcases List.mem_cons.1 hout with rfl | hout
    · exact ⟨rfl, .inl ⟨⟨outlet, rfl⟩, h.1⟩⟩
    · exact ih h.2 hout
  | sendTo name message next ih =>
    rcases List.mem_cons.1 hout with rfl | hout
    · exact ⟨rfl, .inr ⟨name, rfl, h.1⟩⟩
    · exact ih h.2 hout
  | schedule _ _ _ ih => exact ih _ (h.2 _) hout
  | cancel _ _ _ ih => exact ih _ (h _) hout
  | report _ _ _ ih => exact ih h hout

namespace Engine

/-- The engine with another outbox. -/
def withOutbox (e : Engine U) (outbox : Array Outgoing) : Engine U := { e with outbox }

omit [Device U] in
@[simp]
theorem withOutbox_withOutbox (e : Engine U) (o o' : Array Outgoing) :
    (e.withOutbox o).withOutbox o' = e.withOutbox o' := rfl

omit [Device U] in
@[simp]
theorem withOutbox_self (e : Engine U) : e.withOutbox e.outbox = e := rfl

omit [Device U] in
@[simp]
theorem outbox_withOutbox (e : Engine U) (o : Array Outgoing) : (e.withOutbox o).outbox = o := rfl

omit [Device U] in
/-- A script puts what it sends behind what is in the outbox, and reads nothing there. -/
theorem carryOut_withOutbox (id : UnitId) (label : String) (script : Script U) (e : Engine U)
    (o : Array Outgoing) :
    carryOut id label script (e.withOutbox o) =
      ((carryOut id label script e).1,
        (carryOut id label script e).2.withOutbox (o ++ (script.sends id e.queue).toArray)) := by
  induction script generalizing e o with
  | done u => simp [carryOut, Script.sends]
  | send outlet message next ih =>
    rw [Script.sends, List.toArray_cons, ← Array.append_assoc, ← Array.push_eq_append]
    exact ih (e.post id (.outlet outlet) message) _
  | sendTo name message next ih =>
    rw [Script.sends, List.toArray_cons, ← Array.append_assoc, ← Array.push_eq_append]
    exact ih (e.post id (.named name) message) _
  | schedule outlet message next ih =>
    have h := ih (e.queue.insert id outlet message).1
    exact h (({ e with queue := (e.queue.insert id outlet message).2 }).record
      (.scheduled id (e.queue.insert id outlet message).1)) o
  | cancel outlet event next ih =>
    have h := ih (e.queue.find? id outlet event).isSome
    exact h (({ e with queue := e.queue.remove id outlet event }).record
      (.cancelled id event (e.queue.find? id outlet event).isSome)) o
  | report severity text next ih =>
    exact ih (e.record (.reported { severity, source := label, text })) o

/-- A unit reacts as if the outbox were `o`, and puts behind it what it sends. -/
theorem react_withOutbox (e : Engine U) (id : UnitId) (unit : U) (script : Script U)
    (o : Array Outgoing) :
    (e.withOutbox o).react id unit script =
      (e.react id unit script).withOutbox (o ++ (script.sends id e.queue).toArray) := by
  rw [react, react, carryOut_withOutbox]
  rfl

/-- A unit reacts, and what it sends is left out. -/
def reactQuietly (e : Engine U) (id : UnitId) (unit : U) (script : Script U) : Engine U :=
  (e.react id unit script).withOutbox e.outbox

theorem react_eq (e : Engine U) (id : UnitId) (unit : U) (script : Script U) :
    e.react id unit script =
      (e.reactQuietly id unit script).withOutbox
        (e.outbox ++ (script.sends id e.queue).toArray) := by
  conv_lhs => rw [← e.withOutbox_self, react_withOutbox]
  rfl

@[simp]
theorem outbox_reactQuietly (e : Engine U) (id : UnitId) (unit : U) (script : Script U) :
    (e.reactQuietly id unit script).outbox = e.outbox := rfl

theorem reactQuietly_withOutbox (e : Engine U) (id : UnitId) (unit : U) (script : Script U)
    (o : Array Outgoing) :
    (e.withOutbox o).reactQuietly id unit script = (e.reactQuietly id unit script).withOutbox o := by
  rw [reactQuietly, react_withOutbox]
  rfl

/-- Dispatches messages one after another. -/
def dispatchAll (deliver : UnitId → Nat → Message → Engine U → Engine U) (sent : List Outgoing)
    (e : Engine U) : Engine U :=
  sent.foldl (fun e out => dispatch deliver out e) e

/-! ## Work that leaves the outbox alone -/

/-- That work on an engine neither reads nor changes the outbox. -/
structure Unposted (f : Engine U → Engine U) : Prop where
  withOutbox : ∀ (e : Engine U) (o : Array Outgoing), f (e.withOutbox o) = (f e).withOutbox o

omit [Device U] in
theorem Unposted.outbox {f : Engine U → Engine U} (h : Unposted f) (e : Engine U) :
    (f e).outbox = e.outbox := by
  have := h.withOutbox e e.outbox
  rw [withOutbox_self] at this
  rw [this, outbox_withOutbox]

omit [Device U] in
theorem Unposted.foldl {α : Type} {f : Engine U → α → Engine U}
    (h : ∀ a, Unposted fun e => f e a) (l : List α) : Unposted fun e => l.foldl f e := by
  refine ⟨fun e o => ?_⟩
  induction l generalizing e with
  | nil => rfl
  | cons a l ih =>
    rw [List.foldl_cons, List.foldl_cons, (h a).withOutbox e o, ih]

section Dispatch

variable {deliver : UnitId → Nat → Message → Engine U → Engine U}
  (hd : ∀ target inlet message, Unposted (deliver target inlet message))
include hd

omit [Device U] in
theorem unposted_dispatch (out : Outgoing) : Unposted (dispatch deliver out) := by
  refine ⟨fun e o => ?_⟩
  unfold dispatch
  split
  · next outlet _ =>
    exact (Unposted.foldl (fun c : Connection => hd c.dest c.inlet out.message)
      (e.graph.outgoing out.source outlet)).withOutbox e o
  · next name _ =>
    have hall := fun (e : Engine U) => (Unposted.foldl (fun id => hd id 0 out.message)
      (e.graph.names.receivers name.text)).withOutbox
    have hsame : (e.withOutbox o).graph = e.graph := rfl
    simp only [sendNamed, hsame]
    split
    · exact hall e ({ e with external := e.external.push (name, out.message) }.record
        (.collected name out.message)) o
    · split
      · exact hall e (e.report .warning (noReceiver name.text)) o
      · exact hall e e o

omit [Device U] in
theorem unposted_dispatchAll (sent : List Outgoing) : Unposted (dispatchAll deliver sent) :=
  Unposted.foldl (fun out => unposted_dispatch hd out) sent

/-- Dispatches what is at a place of the outbox. -/
def dispatchAt (deliver : UnitId → Nat → Message → Engine U → Engine U) (e : Engine U) (place : Nat) :
    Engine U :=
  match e.outbox[place]? with
  | some out => dispatch deliver out e
  | none => e

omit [Device U] in
/-- The outbox stays while places behind a mark are gone through. -/
theorem foldl_dispatchAt (o : Array Outgoing) (pre post : List Outgoing) (e : Engine U) :
    (List.range' (o.size + pre.length) post.length).foldl (dispatchAt deliver)
        (e.withOutbox (o ++ (pre ++ post).toArray)) =
      (dispatchAll deliver post e).withOutbox (o ++ (pre ++ post).toArray) := by
  induction post generalizing pre e with
  | nil => rfl
  | cons out post ih =>
    have hget : (o ++ (pre ++ out :: post).toArray)[o.size + pre.length]? = some out := by
      simp
    have hstep : dispatchAt deliver (e.withOutbox (o ++ (pre ++ out :: post).toArray))
        (o.size + pre.length) =
        (dispatch deliver out e).withOutbox (o ++ (pre ++ out :: post).toArray) := by
      rw [dispatchAt, outbox_withOutbox, hget]
      exact (unposted_dispatch hd out).withOutbox e _
    have hrest := ih (pre ++ [out]) (dispatch deliver out e)
    rw [List.append_assoc, List.singleton_append, List.length_append, List.length_singleton,
      ← Nat.add_assoc] at hrest
    rw [List.length_cons, List.range'_succ, List.foldl_cons, hstep]
    exact hrest

omit [Device U] in
/-- Everything behind the mark is dispatched once, in order, and taken out. -/
theorem flush_eq (e : Engine U) (o : Array Outgoing) (sent : List Outgoing) :
    flush deliver o.size (e.withOutbox (o ++ sent.toArray)) =
      (dispatchAll deliver sent e).withOutbox o := by
  have hall : (List.range' o.size ((e.withOutbox (o ++ sent.toArray)).outbox.size - o.size)).foldl
      (dispatchAt deliver) (e.withOutbox (o ++ sent.toArray)) =
      (dispatchAll deliver sent e).withOutbox (o ++ sent.toArray) := by
    simpa using foldl_dispatchAt hd o [] sent e
  show (List.foldl (dispatchAt deliver) _ _).withOutbox
    ((List.foldl (dispatchAt deliver) _ _).outbox.extract 0 o.size) = _
  rw [hall, withOutbox_withOutbox, outbox_withOutbox, Array.extract_append]
  simp

end Dispatch

/-! ## Deliveries -/

/-- What follows from a script of a unit: it reacts, and then all that it has sent is dispatched, one
message after another. -/
def carryThrough (deliver : UnitId → Nat → Message → Engine U → Engine U) (id : UnitId) (unit : U)
    (script : Script U) (e : Engine U) : Engine U :=
  dispatchAll deliver (script.sends id e.queue) (e.reactQuietly id unit script)

theorem flush_react {deliver : UnitId → Nat → Message → Engine U → Engine U}
    (hd : ∀ target inlet message, Unposted (deliver target inlet message)) (id : UnitId) (unit : U)
    (script : Script U) (e : Engine U) :
    flush deliver e.outbox.size (e.react id unit script) =
      carryThrough deliver id unit script e := by
  rw [react_eq, flush_eq hd]
  have := (unposted_dispatchAll hd (script.sends id e.queue)).outbox (e.reactQuietly id unit script)
  rw [carryThrough, ← withOutbox_self (dispatchAll ..), this, withOutbox_withOutbox]
  rfl

theorem unposted_carryThrough {deliver : UnitId → Nat → Message → Engine U → Engine U}
    (hd : ∀ target inlet message, Unposted (deliver target inlet message)) (id : UnitId) (unit : U)
    (script : Script U) : Unposted (carryThrough deliver id unit script) := by
  refine ⟨fun e o => ?_⟩
  rw [carryThrough, reactQuietly_withOutbox, (unposted_dispatchAll hd _).withOutbox]
  rfl

/-- A unit that computes nothing receives a message, and then all that it sends is dispatched. -/
def receiveThrough (deliver : UnitId → Nat → Message → Engine U → Engine U) (id : UnitId) (unit : U)
    (inlet : Nat) (message : Message) (e : Engine U) : Engine U :=
  let e := e.record (.received id inlet message)
  carryThrough deliver id unit (Device.receive unit inlet message (e.surroundings id)) e

theorem flush_receive {deliver : UnitId → Nat → Message → Engine U → Engine U}
    (hd : ∀ target inlet message, Unposted (deliver target inlet message)) (id : UnitId) (unit : U)
    (inlet : Nat) (message : Message) (e : Engine U) :
    flush deliver e.outbox.size (e.receive id unit inlet message) =
      receiveThrough deliver id unit inlet message e :=
  flush_react hd id unit _ (e.record (.received id inlet message))

/-- A delivery neither reads nor changes the outbox. -/
theorem unposted_deliver (levels : Nat) (target : UnitId) (inlet : Nat) (message : Message) :
    Unposted (U := U) (deliver levels target inlet message) := by
  induction levels generalizing target inlet message with
  | zero => exact ⟨fun _ _ => rfl⟩
  | succ levels ih =>
    refine ⟨fun e o => ?_⟩
    unfold deliver
    have hsame : (e.withOutbox o).graph = e.graph := rfl
    rw [hsame]
    split
    · rfl
    · next n hn =>
      split
      · next _ goals _ =>
        exact (Unposted.foldl (fun goal : UnitId × Nat => ih goal.1 goal.2 message) goals).withOutbox e o
      · rfl
      · next unit _ _ =>
        split
        · rfl
        · rw [flush_receive ih, flush_receive ih]
          exact (unposted_carryThrough ih target unit _).withOutbox
            (e.record (.received target inlet message)) o

/-- A delivery leaves the outbox as it was. -/
theorem outbox_deliver (levels : Nat) (target : UnitId) (inlet : Nat) (message : Message)
    (e : Engine U) : (deliver levels target inlet message e).outbox = e.outbox :=
  (unposted_deliver levels target inlet message).outbox e

end Engine
end Patchbay
