import Patchbay.Proofs.Catalogue.Timing
import Patchbay.Proofs.Engine.Cascade
import Patchbay.Proofs.Graph.Resembling
import Patchbay.Proofs.Queue

/-!
# Who wakes whom

When an event is handed back to a node, the message goes on from there at once, along connections, names
and the ports of subgraphs. `Graph.Wakes` says which units may receive what a node sends. A unit that is
woken so may schedule events of its own, and these are all the events that are added
(`HandsBack.unfolds`): each lies later, unless it is that of a `delay` which does not lead on
(`Graph.Ensues`).
-/

namespace Patchbay

open Relation

/-- The unit at a node. -/
def Body.unit? {U : Type} : Body U → Option U
  | .device unit => some unit
  | .subgraph => none

theorem Body.unit?_eq_some {U : Type} {b : Body U} {unit : U} :
    b.unit? = some unit ↔ b = .device unit := by
  cases b <;> simp [Body.unit?]

/-! ## Ways of messages -/

namespace Graph

variable (g : Graph CatalogueUnit)

/-- Whether a node is a unit. -/
def IsUnit (id : UnitId) (u : CatalogueUnit) : Prop :=
  ∃ n, g.node? id = some n ∧ n.body = .device u

/-- Whether a message that a node sends may come to an inlet. -/
inductive Hears (x : UnitId) : UnitId → Nat → Prop
  | connected {c : Connection} : c ∈ g.connections → c.source = x → Hears x c.dest c.inlet
  | called {u : CatalogueUnit} {name : Symbol} {y : UnitId} : g.IsUnit x u → u.calls? = some name →
      y ∈ g.names.receivers name.text → Hears x y 0
  /-- A port of a subgraph passes messages on. -/
  | passed {y : UnitId} {inlet : Nat} {n : Node CatalogueUnit} {goals : List (UnitId × Nat)}
      {goal : UnitId × Nat} : Hears x y inlet → g.node? y = some n →
      Engine.passOn? g n y inlet = some goals → goal ∈ goals → Hears x goal.1 goal.2

/-- Whether a message that a node sends may be received by a unit at once. -/
def Wakes (x y : UnitId) : Prop :=
  ∃ inlet n u, g.Hears x y inlet ∧ g.node? y = some n ∧ Engine.passOn? g n y inlet = none ∧
    n.body = .device u ∧ Device.computes u = false

/-- Whether a node is a `delay` that is set to some time. -/
def Delays (x : UnitId) (wait : Float) : Prop := ∃ u, g.IsUnit x u ∧ u.delay? = some wait

/-- Whether each `delay` is set to a time with a property. -/
def allDelays (p : Float → Bool) : Bool :=
  g.nodes.all fun n => n.all fun n => n.body.unit?.all fun u => u.delay?.all p

/-- Whether a node is a `delay` that may go back in time, for it is set to a negative time, or may be
set anew. -/
def Wavers (x : UnitId) : Prop :=
  ∃ wait, g.Delays x wait ∧ (¬ 0 ≤ wait ∨ ∃ c ∈ g.connections, c.dest = x ∧ c.inlet = 1)

/-- Whether a node is a `delay` that leads on from each time up to another. -/
def Patient (stop : Float) (x : UnitId) : Prop :=
  ∃ wait, g.Delays x wait ∧ Double.LeadsOn stop wait ∧ ¬ g.Wavers x

/-- Whether a message that a node sends may be received by a unit at once, and go on from there without
a `delay` that leads on. -/
def Hurries (stop : Float) (x y : UnitId) : Prop := g.Wakes x y ∧ ¬ g.Patient stop y

/-- Whether a message that a node sends may go on from a unit at once. -/
def Relays : UnitId → UnitId → Prop :=
  ReflTransGen fun x y => g.Wakes x y ∧ ∀ wait, ¬ g.Delays y wait

/-- Whether an event may come of one of a node that was due at a time. -/
inductive Ensues (stop : Float) (x : UnitId) (t : Float) (event : Event) : Prop
  | later : ReflTransGen g.Wakes x event.target → t < event.timestamp → Ensues stop x t event
  | wavering : TransGen g.Wakes x event.target → g.Wavers event.target → Ensues stop x t event
  | hurried {wait : Float} : TransGen (g.Hurries stop) x event.target → g.Delays event.target wait →
      t ≤ event.timestamp → Ensues stop x t event

variable {g} {g' : Graph CatalogueUnit} {x y : UnitId} {stop t : Float}

theorem IsUnit.unique {u v : CatalogueUnit} (h : g.IsUnit x u) (h' : g.IsUnit x v) : u = v := by
  obtain ⟨n, hn, hu⟩ := h
  obtain ⟨m, hm, hv⟩ := h'
  cases hn.symm.trans hm
  exact Body.device.inj (hu.symm.trans hv)

theorem of_allDelays {p : Float → Bool} {wait : Float} (h : g.allDelays p = true)
    (hdelays : g.Delays x wait) : p wait = true := by
  obtain ⟨u, ⟨n, hn, hu⟩, hwait⟩ := hdelays
  have hmem : some n ∈ g.nodes := by
    rw [node?, Option.join_eq_some_iff] at hn
    exact Array.mem_of_getElem? hn
  simpa [Body.unit?, hu, hwait] using Array.all_eq_true'.1 h _ hmem

theorem Relays.wakes (h : g.Relays x y) : ReflTransGen g.Wakes x y :=
  ReflTransGen.mono (fun _ _ h => h.1) _ _ h

theorem Relays.hurries (h : g.Relays x y) : ReflTransGen (g.Hurries stop) x y :=
  ReflTransGen.mono (fun _ _ h => ⟨h.1, fun hp => h.2 _ hp.choose_spec.1⟩) _ _ h

/-- Only a connection leads to the right inlet of a unit. -/
theorem exists_connection_of_hears {inlet : Nat} (h : g.Hears x y inlet) (hinlet : inlet = 1) :
    ∃ c ∈ g.connections, c.dest = y ∧ c.inlet = 1 := by
  cases h with
  | connected hc => exact ⟨_, hc, rfl, hinlet⟩
  | called => omega
  | @passed z k n goals goal _ _ hp hgoal =>
    unfold Engine.passOn? at hp
    split at hp
    · cases hp
      obtain ⟨port, -, rfl⟩ := List.mem_map.1 hgoal
      cases hinlet
    · split at hp
      · split at hp
        · cases hp
        · cases hp
          obtain ⟨c, hc, rfl⟩ := List.mem_map.1 hgoal
          exact ⟨c, (List.mem_filter.1 hc).1, rfl, hinlet⟩
      · cases hp

/-- Where messages are passed on depends on the shape. -/
theorem SameShape.passOn? (h : g.SameShape g') {n n' : Node CatalogueUnit} (hn : n'.shape = n.shape)
    (x : UnitId) (inlet : Nat) : Engine.passOn? g' n' x inlet = Engine.passOn? g n x inlet := by
  have hports : n'.ports = n.ports := congrArg NodeShape.ports hn
  have howner : n'.owner = n.owner := congrArg NodeShape.owner hn
  have hport : n'.port = n.port := congrArg NodeShape.port hn
  have hsub : n'.isSubgraph = n.isSubgraph := congrArg NodeShape.isSubgraph hn
  simp only [Engine.passOn?, Graph.outgoing, hports, howner, hport, hsub, h.portUnit?, h.connections]

/-! ## Units while events are handed back -/

/-- What a graph has become while events are handed back: its units are still what they were, and a
`delay` is set to the same time, unless it may be set anew. -/
structure Stands (g g' : Graph CatalogueUnit) : Prop where
  shape : g.SameShape g'
  receivers : ∀ name, g'.names.receivers name = g.names.receivers name
  bodies : ∀ {id v}, g'.IsUnit id v →
    ∃ u, g.IsUnit id u ∧ u.Kindred v ∧ (¬ g.Wavers id → v.delay? = u.delay?)

/-- The node that there was. -/
theorem Stands.exists_node (h : g.Stands g') {n' : Node CatalogueUnit} (hn : g'.node? x = some n') :
    ∃ n, g.node? x = some n ∧ n'.shape = n.shape := by
  have hshape := h.shape.shape x
  rw [shape?, shape?, hn] at hshape
  obtain ⟨n, hn, heq⟩ := Option.map_eq_some_iff.1 hshape.symm
  exact ⟨n, hn, heq.symm⟩

/-- A unit is replaced by what it has become, or its node by one that is like it. -/
theorem Stands.modifyNode (h : g.Stands g') (id : UnitId) {f : Node CatalogueUnit → Node CatalogueUnit}
    (hshape : ∀ n, g'.node? id = some n → (f n).shape = n.shape)
    (hbody : ∀ n v, g'.node? id = some n → (f n).body = .device v →
      ∃ u, g.IsUnit id u ∧ u.Kindred v ∧ (¬ g.Wavers id → v.delay? = u.delay?)) :
    g.Stands (g'.modifyNode id f) where
  shape := h.shape.trans (sameShape_modifyNode g' id hshape)
  receivers := h.receivers
  bodies {x v} hv := by
    obtain ⟨n', hn', hv⟩ := hv
    rw [node?_modifyNode] at hn'
    split at hn'
    · next hx =>
      subst hx
      obtain ⟨n, hn, rfl⟩ := Option.map_eq_some_iff.1 hn'
      exact hbody n v hn hv
    · exact h.bodies ⟨n', hn', hv⟩

/-- A unit becomes another that is set to the same time if it is a `delay` that may not be set anew. -/
theorem Stands.replace (h : g.Stands g') {n : Node CatalogueUnit} {u v : CatalogueUnit}
    (hn : g'.node? x = some n) (hu : n.body = .device u) (hkindred : u.Kindred v)
    (hdelay : ¬ g.Wavers x → v.delay? = u.delay?) :
    g.Stands (g'.modifyNode x fun n => { n with body := .device v }) := by
  obtain ⟨w, hw, hwu, hsame⟩ := h.bodies ⟨n, hn, hu⟩
  refine h.modifyNode x (fun m hm => ?_) fun m v' hm hv' => ?_
  · cases hn.symm.trans hm
    simp only [Node.shape, Node.isSubgraph, hu]
  · cases hv'
    exact ⟨w, hw, CatalogueUnit.kindred.trans _ _ _ hwu hkindred, fun hx =>
      (hdelay hx).trans (hsame hx)⟩

end Graph

/-! ## What scripts add to the queue -/

section Scripts

variable {U : Type} {sent : Option Symbol → Message → Prop} {scheduled : Message → Prop}

/-- A script adds no events but those that it schedules. -/
theorem adds_carryOut {script : Script U} (h : script.Posts sent scheduled) (id : UnitId)
    (label : String) {P : Event → Prop}
    (hP : ∀ event outlet message, scheduled message → P ⟨event, id, outlet, Queue.due message⟩)
    (e : Engine U) (ho : e.queue.Ordered) :
    (Engine.carryOut id label script e).2.queue.Ordered ∧
      e.queue.Adds P (Engine.carryOut id label script e).2.queue := by
  induction script generalizing e with
  | done => exact ⟨ho, .refl _⟩
  | send _ _ _ ih | sendTo _ _ _ ih => exact ih h.2 _ ho
  | report _ _ _ ih => exact ih h _ ho
  | schedule outlet message next ih =>
    obtain ⟨hordered, hadds⟩ := ih _ (h.2 (e.queue.insert id outlet message).1)
      ({ e with queue := (e.queue.insert id outlet message).2 }.record _)
      (Queue.ordered_insert ho message)
    exact ⟨hordered, (Queue.adds_insert message fun event => hP event outlet message h.1).trans hadds⟩
  | cancel outlet event next ih =>
    have hsub := Queue.remove_sublist e.queue id outlet event
    obtain ⟨hordered, hadds⟩ := ih _ (h (e.queue.find? id outlet event).isSome)
      ({ e with queue := e.queue.remove id outlet event }.record _) (ho.of_sublist hsub)
    exact ⟨hordered, (Queue.Adds.of_sublist hsub).trans hadds⟩

end Scripts

/-! ## Cascades -/

namespace Engine

variable {g : Graph CatalogueUnit} {stop t : Float} {x y : UnitId} {e e' e'' : Engine CatalogueUnit}

/-- Whether an errand may come of an event of a node that was due at a time. -/
def Errand.Comes (g : Graph CatalogueUnit) (x : UnitId) (t : Float) : Errand → Prop
  | .deliver target inlet message =>
    message.timestamp = t ∧ ∃ y, g.Relays x y ∧ g.Hears y target inlet
  | .dispatch out => out.message.timestamp = t ∧ g.Relays x out.source ∧
    ∀ name, out.route = .named name → ∃ u, g.IsUnit out.source u ∧ u.calls? = some name

/-- A message goes along a connection. -/
theorem Errand.Comes.deliver (hstands : g.Stands e.graph) {source : UnitId} {outlet : Nat}
    {message : Message} (h : Errand.Comes g x t (.dispatch ⟨source, .outlet outlet, message⟩))
    {c : Connection} (hc : c ∈ e.graph.outgoing source outlet) :
    Errand.Comes g x t (.deliver c.dest c.inlet message) := by
  obtain ⟨htime, hx, -⟩ := h
  simp only [Graph.outgoing, List.mem_filter, Bool.and_eq_true, beq_iff_eq] at hc
  exact ⟨htime, source, hx, .connected (hstands.shape.connections ▸ hc.1) hc.2.1⟩

/-- A message goes to a receiver of a name. -/
theorem Errand.Comes.call (hstands : g.Stands e.graph) {source : UnitId} {name : Symbol}
    {message : Message} (h : Errand.Comes g x t (.dispatch ⟨source, .named name, message⟩))
    {id : UnitId} (hid : id ∈ e.graph.names.receivers name.text) :
    Errand.Comes g x t (.deliver id 0 message) := by
  obtain ⟨htime, hx, hcalls⟩ := h
  obtain ⟨u, hu, hcall⟩ := hcalls name rfl
  exact ⟨htime, source, hx, .called hu hcall (hstands.receivers _ ▸ hid)⟩

/-- What a unit sends comes of an event if that goes on from the unit at once. -/
theorem comes_of_mem_sends (hstands : g.Stands e.graph) {n : Node CatalogueUnit} {u : CatalogueUnit}
    (hn : e.graph.node? y = some n) (hu : n.body = .device u) (hx : g.Relays x y)
    {script : Script CatalogueUnit} {scheduled : Message → Prop}
    (hposts : script.Posts (u.Sends t) scheduled) {q : Queue} {out : Outgoing}
    (hout : out ∈ script.sends y q) : Errand.Comes g x t (.dispatch out) := by
  obtain ⟨u₀, hu₀, hkindred, -⟩ := hstands.bodies ⟨n, hn, hu⟩
  obtain ⟨rfl, ⟨⟨outlet, hroute⟩, hsends⟩ | ⟨name, hroute, hsends⟩⟩ := hposts.of_mem_sends hout
  · refine ⟨hsends.1, hx, fun name hname => ?_⟩
    rw [hroute] at hname
    cases hname
  · refine ⟨hsends.1, hx, fun name' hname => ?_⟩
    cases hroute.symm.trans hname
    exact ⟨u₀, hu₀, hkindred.calls.symm.trans (hsends.2 _ rfl)⟩

/-- What a unit that is woken sends at once; a `delay` sends nothing. -/
theorem comes_of_mem_answers (hstands : g.Stands e.graph) {n : Node CatalogueUnit} {u : CatalogueUnit}
    (hn : e.graph.node? y = some n) (hu : n.body = .device u) {inlet : Nat} {message : Message}
    (htime : message.timestamp = t) {z : UnitId} (hx : g.Relays x z) (hwakes : g.Wakes z y)
    {out : Outgoing} (hout : out ∈ e.answers y u inlet message) :
    Errand.Comes g x t (.dispatch out) := by
  cases hdelay : u.delay? with
  | some wait =>
    have hposts : (u.receive inlet message (e.surroundings y)).Posts (fun _ _ => False) _ :=
      CatalogueUnit.posts_receive_of_delay u inlet message hdelay (e.surroundings y)
    obtain ⟨-, h | ⟨-, -, h⟩⟩ := hposts.of_mem_sends hout
    · exact h.2.elim
    · exact h.elim
  | none =>
    have hposts := CatalogueUnit.posts_receive u inlet message (e.surroundings y)
    rw [htime] at hposts
    refine comes_of_mem_sends hstands hn hu (hx.tail ⟨hwakes, fun wait ⟨v, hv, hwait⟩ => ?_⟩) hposts hout
    obtain ⟨u₀, hu₀, hkindred, -⟩ := hstands.bodies ⟨n, hn, hu⟩
    have hnone := hkindred.delays
    rw [hdelay, hu₀.unique hv, hwait] at hnone
    cases hnone

/-- What an engine may become when an event of a node, due at a time, is handed back. -/
structure Unfolds (g : Graph CatalogueUnit) (stop : Float) (x : UnitId) (t : Float)
    (e e' : Engine CatalogueUnit) : Prop where
  stands : g.Stands e'.graph
  ordered : e'.queue.Ordered
  adds : e.queue.Adds (g.Ensues stop x t) e'.queue

theorem Unfolds.trans (h : Unfolds g stop x t e e') (h' : Unfolds g stop x t e' e'') :
    Unfolds g stop x t e e'' :=
  ⟨h'.stands, h'.ordered, h.adds.trans h'.adds⟩

/-- A time that waiting for a millisecond leads to is later. -/
theorem lt_due {message : Message} {wait : Float} (ht : 0 ≤ t) (hle : t ≤ stop)
    (htime : message.timestamp = t + wait) (hlead : Double.LeadsOn stop wait) :
    t < (Queue.due message).timestamp := by
  have hlt := hlead t ht hle
  rw [Queue.due_eq (htime ▸ (Double.lt_iff.1 hlt).2.1), htime]
  exact hlt

/-- A unit reacts, and stays what it was. -/
theorem unfolds_reactQuietly {n : Node CatalogueUnit} {u : CatalogueUnit} {script : Script CatalogueUnit}
    {sent : Option Symbol → Message → Prop} {scheduled : Message → Prop} (hstands : g.Stands e.graph)
    (ho : e.queue.Ordered) (hn : e.graph.node? y = some n) (hu : n.body = .device u)
    (hkindred : script.Ends u.Kindred)
    (hdelay : script.Ends fun v => ¬ g.Wavers y → v.delay? = u.delay?)
    (hposts : script.Posts sent scheduled)
    (hensues : ∀ event outlet m, scheduled m →
      g.Ensues stop x t ⟨event, y, outlet, Queue.due m⟩) :
    Unfolds g stop x t e (e.reactQuietly y u script) := by
  obtain ⟨⟨hv, hsame⟩, hgraph, -⟩ :=
    carryOut_spec y (Device.label u) script (hkindred.and hdelay) e
  have hadds := adds_carryOut hposts y (Device.label u) hensues e ho
  refine ⟨?_, hadds.1, hadds.2⟩
  show g.Stands ((carryOut y (Device.label u) script e).2.graph.modifyNode y _)
  rw [hgraph]
  exact hstands.replace hn hu hv hsame

section Due

variable (hstop : stop < 9007199254740992) (ht : 0 ≤ t) (hle : t ≤ stop)
include hstop ht hle

/-- What a unit schedules that is woken ensues. -/
theorem ensues_of_schedules {g' : Graph CatalogueUnit} {v : CatalogueUnit} {z : UnitId}
    (hstands : g.Stands g') (hv : g'.IsUnit y v) (hx : g.Relays x z) (hwakes : g.Wakes z y)
    {message : Message} (hs : v.Schedules t message) (event : EventId) (outlet : Nat) :
    g.Ensues stop x t ⟨event, y, outlet, Queue.due message⟩ := by
  have hreach : TransGen g.Wakes x y := TransGen.tail' hx.wakes hwakes
  obtain ⟨wait, htime, hwait⟩ := hs
  obtain ⟨u, hu, -, hsame⟩ := hstands.bodies hv
  by_cases hwavers : g.Wavers y
  · exact .wavering hreach hwavers
  by_cases hlead : Double.LeadsOn stop wait
  · exact .later hreach.to_reflTransGen (lt_due ht hle htime hlead)
  -- the unit is a `delay` that does not lead on, but does not go back either
  have hdelay : u.delay? = some wait := by
    rcases hwait with hone | hdelay
    · exact absurd (Double.leadsOn_of_one_le hstop hone) hlead
    · rw [← hsame hwavers, hdelay]
  have hdelays : g.Delays y wait := ⟨u, hu, hdelay⟩
  have hnonneg : 0 ≤ wait := by
    by_contra hneg
    exact hwavers ⟨wait, hdelays, .inl hneg⟩
  have hpatient : ¬ g.Patient stop y := by
    rintro ⟨wait', ⟨u', hu', hdelay'⟩, hlead', -⟩
    cases hu.unique hu'
    cases hdelay.symm.trans hdelay'
    exact hlead hlead'
  have hnotBefore : t ≤ t + wait := Double.le_add ht hnonneg
  refine .hurried (TransGen.tail' hx.hurries ⟨hwakes, hpatient⟩) hdelays ?_
  show t ≤ (Queue.due message).timestamp
  rw [Queue.due_eq (htime ▸ (Double.le_iff.1 hnotBefore).2.1), htime]
  exact hnotBefore

/-- A unit receives a message that comes of an event. -/
theorem unfolds_received {n : Node CatalogueUnit} {u : CatalogueUnit} {z : UnitId} {inlet : Nat}
    {message : Message} (hstands : g.Stands e.graph) (ho : e.queue.Ordered)
    (hn : e.graph.node? y = some n) (hu : n.body = .device u) (htime : message.timestamp = t)
    (hx : g.Relays x z) (hhears : g.Hears z y inlet) (hwakes : g.Wakes z y) :
    Unfolds g stop x t e (e.received y u inlet message) := by
  have hkindred := CatalogueUnit.kindred_receive u inlet message (e.surroundings y)
  have hdelay : (u.receive inlet message (e.surroundings y)).Ends
      fun v => ¬ g.Wavers y → v.delay? = u.delay? := by
    by_cases hinlet : inlet = 1
    · -- a `delay` that hears something at its right inlet may be set anew
      refine hkindred.mono fun v hv hwavers => ?_
      obtain ⟨w, hw, hwu, hsame⟩ := hstands.bodies ⟨n, hn, hu⟩
      cases hd : u.delay? with
      | none =>
        have hnone := hv.delays
        rw [hd] at hnone
        exact Option.isNone_iff_eq_none.1 (Option.isSome_eq_false_iff.1 hnone)
      | some wait =>
        refine absurd ⟨wait, ⟨w, hw, ?_⟩, .inr (Graph.exists_connection_of_hears hhears hinlet)⟩
          hwavers
        rw [← hsame hwavers, hd]
    · exact (CatalogueUnit.ends_receive u inlet message _ hinlet).mono fun v hv _ => hv
  have hreacts := unfolds_reactQuietly (e := e.record (.received y inlet message)) hstands ho hn hu
    hkindred hdelay (CatalogueUnit.posts_receive u inlet message _) fun event outlet m hm =>
    ensues_of_schedules hstop ht hle hstands ⟨n, hn, hu⟩ hx hwakes (htime ▸ hm) event outlet
  exact ⟨hreacts.stands, hreacts.ordered, hreacts.adds⟩

/-- What may follow from errands that come of an event comes of it, too. -/
theorem keeping_unfolds (e : Engine CatalogueUnit) :
    Keeping (Unfolds g stop x t e) (Errand.Comes g x t) fun _ => True where
  report _ h := ⟨h.stands, h.ordered, h.adds⟩
  collect _ _ h := ⟨h.stands, h.ordered, h.adds⟩
  defer {e' target n unit inlet message} h hn hu := by
    have hkept : g.Stands (e'.defer target inlet message).graph := by
      refine h.stands.modifyNode target (fun _ _ => rfl) fun m v hm hv => ?_
      exact h.stands.bodies ⟨m, hm, hv⟩
    exact ⟨hkept, h.ordered, h.adds⟩
  receive {e' target n u inlet message} h hcomes _ hn hp hu hc := by
    obtain ⟨htime, z, hx, hhears⟩ := hcomes
    obtain ⟨n₀, hn₀, hshape⟩ := h.stands.exists_node hn
    rw [h.stands.shape.passOn? hshape] at hp
    obtain ⟨u₀, ⟨m, hm, hu₀⟩, hkindred, -⟩ := h.stands.bodies ⟨n, hn, hu⟩
    cases hn₀.symm.trans hm
    have hwakes : g.Wakes z target :=
      ⟨inlet, n₀, u₀, hhears, hn₀, hp, hu₀, hkindred.alike.computes.symm.trans hc⟩
    have hreceived : Unfolds g stop x t e' (e'.received target u inlet message) :=
      unfolds_received hstop ht hle h.stands h.ordered hn hu htime hx hhears hwakes
    exact ⟨h.trans hreceived, fun out hout =>
      comes_of_mem_answers h.stands hn hu htime hx hwakes hout⟩
  pass {e' target n inlet message goals goal} h hcomes hn hp hgoal := by
    obtain ⟨htime, z, hx, hhears⟩ := hcomes
    obtain ⟨n₀, hn₀, hshape⟩ := h.stands.exists_node hn
    rw [h.stands.shape.passOn? hshape] at hp
    exact ⟨htime, z, hx, .passed hhears hn₀ hp hgoal⟩
  leave h hcomes hc := hcomes.deliver h.stands hc
  call h hcomes hid := hcomes.call h.stands hid

/-- All that follows from errands that come of an event. -/
theorem Runs.unfolds {depth : Nat} {errands : List Errand} {trace : Trace}
    (h : Runs depth errands e trace e') (hstands : g.Stands e.graph) (ho : e.queue.Ordered)
    (hcomes : ∀ errand ∈ errands, errand.Comes g x t) : Unfolds g stop x t e e' :=
  h.keeps (keeping_unfolds hstop ht hle e) (fun _ _ => ⟨⟩) ⟨hstands, ho, .refl _⟩ hcomes

/-- All that follows when an event is handed back. -/
theorem HandsBack.unfolds {event : Event} {trace : Trace} (h : HandsBack event e trace e')
    (hstands : g.Stands e.graph) (ho : e.queue.Ordered) (htime : event.timestamp = t) :
    Unfolds g stop event.target t e e' := by
  cases h with
  | gone => exact ⟨hstands, ho, .refl _⟩
  | subgraph hn hu hrun =>
    refine hrun.unfolds hstop ht hle hstands ho fun errand herrand => ?_
    rw [List.mem_singleton.1 herrand]
    exact ⟨htime, .refl, fun _ h => by cases h⟩
  | @unit n u trace _ hn hu hrun =>
    have hposts := CatalogueUnit.posts_emit u event.outlet event.message
    have hreacts : Unfolds g stop event.target t e _ :=
      unfolds_reactQuietly hstands ho hn hu
        (CatalogueUnit.kindred_emit u event.outlet event.message)
        ((CatalogueUnit.ends_emit u event.outlet event.message).mono fun v hv _ => hv) hposts
        fun id outlet m hm => by
          obtain ⟨wait, hm, hone⟩ := hm
          exact .later .refl (lt_due ht hle (htime ▸ hm) (Double.leadsOn_of_one_le hstop hone))
    refine hreacts.trans (hrun.unfolds hstop ht hle hreacts.stands hreacts.ordered
      fun errand herrand => ?_)
    obtain ⟨out, hout, rfl⟩ := List.mem_map.1 herrand
    rw [show event.message.timestamp = t from htime] at hposts
    exact comes_of_mem_sends hstands hn hu .refl hposts hout

end Due
end Engine
end Patchbay
