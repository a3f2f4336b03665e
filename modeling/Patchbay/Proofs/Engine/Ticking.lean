import Patchbay.Proofs.Catalogue.Clocks
import Patchbay.Proofs.Engine.Mentions

/-!
# One clock for each metro and delay

A `metro` or `delay` remembers the event that it has scheduled, and this is the only event for it in
the queue, as long as the host itself schedules and cancels none (`Unattended`). The two books agree
after each reaction, except between the moment when the event falls due and the answer of the unit,
and so they agree whenever the engine is at rest (`one_clock`). Hence nothing falls due for a unit
that has been stopped, until it is set going again.
-/

namespace Patchbay

variable {U : Type} [Device U] {f : CatalogueUnit → U} {orders : Nat → Message → Option Bool}
  {x : UnitId}

/-! ## Orders -/

/-- The order that a unit is given by what happens. -/
def Happening.order? (orders : Nat → Message → Option Bool) (x : UnitId) : Happening → Option Bool
  | .received unit inlet message => if unit = x then orders inlet message else none
  | _ => none

/-- The last order that a unit has been given: to go, or to stop. -/
def lastOrder? (orders : Nat → Message → Option Bool) (x : UnitId) (hs : List Happening) :
    Option Bool :=
  (hs.filterMap (·.order? orders x)).getLast?

/-- That no event of a unit falls due while the last order to it was to stop. -/
def Heeded (orders : Nat → Message → Option Bool) (x : UnitId) (hs : List Happening) : Prop :=
  ∀ pre event post, hs = pre ++ .fellDue event :: post → event.target = x →
    lastOrder? orders x pre ≠ some false

section Orders

variable {hs hs' : List Happening} {a : Happening}

theorem order?_of_about? (h : a.about? ≠ some x) : a.order? orders x = none := by
  cases a with
  | received unit inlet message =>
    have hne : unit ≠ x := fun he => h (congrArg some he)
    exact if_neg hne
  | _ => rfl

/-- What is about others is no order. -/
theorem lastOrder?_append (h : ∀ a ∈ hs', a.about? ≠ some x) :
    lastOrder? orders x (hs ++ hs') = lastOrder? orders x hs := by
  have hnone : hs'.filterMap (·.order? orders x) = [] :=
    List.filterMap_eq_nil_iff.2 fun a ha => order?_of_about? (h a ha)
  rw [lastOrder?, List.filterMap_append, hnone, List.append_nil]
  rfl

/-- That an event falls due is no order. -/
theorem lastOrder?_fellDue (hs : List Happening) (event : Event) :
    lastOrder? orders x (hs ++ [.fellDue event]) = lastOrder? orders x hs := by
  rw [lastOrder?, List.filterMap_append]
  exact congrArg List.getLast? (List.append_nil _)

theorem lastOrder?_received (hs : List Happening) (inlet : Nat) (message : Message) :
    lastOrder? orders x (hs ++ [.received x inlet message]) =
      (orders inlet message).or (lastOrder? orders x hs) := by
  have horder : (Happening.received x inlet message).order? orders x = orders inlet message :=
    if_pos rfl
  rw [lastOrder?, lastOrder?, List.filterMap_append, List.filterMap_cons, horder]
  cases orders inlet message with
  | none => rw [List.filterMap_nil, List.append_nil, Option.none_or]
  | some order => rw [List.filterMap_nil, List.getLast?_concat, Option.some_or]

theorem heeded_concat (h : Heeded orders x hs)
    (ha : ∀ event, a = .fellDue event → event.target = x → lastOrder? orders x hs ≠ some false) :
    Heeded orders x (hs ++ [a]) := by
  intro pre event post heq hevent
  rcases List.eq_nil_or_concat' post with rfl | ⟨post, last, rfl⟩
  · obtain ⟨rfl, hlast⟩ := List.append_inj' heq rfl
    exact ha event (List.cons.inj hlast).1 hevent
  · rw [← List.cons_append, ← List.append_assoc] at heq
    exact h pre event post (List.append_inj' heq rfl).1 hevent

theorem heeded_append (h : Heeded orders x hs) (h' : ∀ a ∈ hs', a.about? ≠ some x) :
    Heeded orders x (hs ++ hs') := by
  induction hs' generalizing hs with
  | nil => rwa [List.append_nil]
  | cons a hs' ih =>
    obtain ⟨ha, hs''⟩ := List.forall_mem_cons.1 h'
    rw [List.append_cons]
    refine ih (heeded_concat h fun event heq hevent => ?_) hs''
    rw [heq] at ha
    exact absurd (congrArg some hevent) ha

end Orders

/-! ## Clocks that are left alone -/

/-- Whether a clock stays just what it is. -/
def Unmoved (f : CatalogueUnit → U) (u v : U) : Prop :=
  ∀ c : CatalogueUnit, c.clock?.isSome = true → u = f c → v = f c

/-- What connects to a clock is no business of it. -/
theorem heeds_unmoved (hf : Faithful f) : Heeds (Unmoved f) where
  refl _ _ _ h := h
  trans _ _ _ h h' c hc hu := h' c hc (h c hc hu)
  rewired u inlet counts := by
    rintro c hc rfl
    rw [hf.rewired]
    cases c with
    | metro | delay => rfl
    | _ => cases hc

/-- A clock computes nothing. -/
theorem unmoved_of_process (hf : Faithful f) {u u' : U} {ins : Inputs} {outs outs' : Outputs}
    {first last : Nat} (h : Device.process u ins outs first last = .ok (u', outs')) :
    Unmoved f u u' := by
  rintro c hc rfl
  rw [hf.process] at h
  cases c with
  | metro | delay =>
    cases h
    rfl
  | _ => cases hc

namespace Graph

/-- That a clock, if it is still there, has been left alone. -/
def Spares (f : CatalogueUnit → U) (x : UnitId) (g g' : Graph U) : Prop :=
  ∀ n', g'.node? x = some n' → ∃ n, g.node? x = some n ∧ n'.registration = n.registration ∧
    n.body.Becomes (Unmoved f) n'.body

variable {g g' : Graph U}

omit [Device U] in
theorem spares_of_nodes (h : g'.nodes = g.nodes) : g.Spares f x g' := by
  intro n' hn'
  rw [node?_eq, h, ← node?_eq] at hn'
  exact ⟨n', hn', rfl, .refl (fun _ _ _ h => h) _⟩

omit [Device U] in
theorem spares_modifyNode (g : Graph U) (id : UnitId) {change : Node U → Node U}
    (hrole : ∀ n, (change n).registration = n.registration)
    (hbody : ∀ n, g.node? id = some n → id = x → n.body.Becomes (Unmoved f) (change n).body) :
    g.Spares f x (g.modifyNode id change) := by
  intro n' hn'
  rw [node?_modifyNode] at hn'
  split at hn'
  · next hx =>
    obtain ⟨n, hn, rfl⟩ := Option.map_eq_some_iff.1 hn'
    subst hx
    exact ⟨n, hn, hrole n, hbody n hn rfl⟩
  · exact ⟨n', hn', rfl, .refl (fun _ _ _ h => h) _⟩

omit [Device U] in
theorem spares_of_inherits (h : g.Inherits (Unmoved f) g') (hx : x.index < g.nodes.size) :
    g.Spares f x g' := by
  intro n' hn'
  obtain ⟨n, hn, hbody, -, -, hrole⟩ := h.old hn' hx
  exact ⟨n, hn, hrole, hbody⟩

end Graph

namespace Engine

variable {settings : Settings} {own : UnitId → Prop} {command : Command U}
  {e e' : Engine U} {whole : Prop}

/-! ## Reactions -/

omit [Device U] in
/-- What a script leaves, the engine has. -/
theorem leaves_carryOut {id : UnitId} {P : U → Queue → Prop} {script : Script U} (label : String)
    (h : script.Leaves id P e.queue) :
    P (carryOut id label script e).1 (carryOut id label script e).2.queue := by
  induction script generalizing e with
  | done unit => exact h
  | send _ _ _ ih | sendTo _ _ _ ih | report _ _ _ ih => exact ih h
  | schedule _ _ _ ih | cancel _ _ _ ih => exact ih _ h

omit [Device U] in
/-- A script leaves the events of other units alone. -/
theorem eventsFor_carryOut {target : UnitId} (hne : target ≠ x) (label : String) (script : Script U)
    (e : Engine U) : (carryOut target label script e).2.queue.eventsFor x = e.queue.eventsFor x := by
  induction script generalizing e with
  | done unit => rfl
  | send _ _ _ ih | sendTo _ _ _ ih | report _ _ _ ih => exact ih _
  | schedule outlet message next ih => exact (ih _ _).trans (Queue.eventsFor_insert_of_ne hne message)
  | cancel outlet event next ih => exact (ih _ _).trans (Queue.eventsFor_remove_of_ne hne event)

/-- What holds of a clock whenever the engine is at rest: it is there with books that agree, or has
been removed. The books are whole at the latest when it has been given an order. -/
structure Clocked (f : CatalogueUnit → U) (orders : Nat → Message → Option Bool) (whole : Prop)
    (x : UnitId) (e : Engine U) : Prop where
  added : x.index < e.graph.nodes.size
  clock : ∀ n, e.graph.node? x = some n → n.registration = none ∧ ∃ u pending,
    n.body = .device (f u) ∧ u.clock? = some pending ∧ u.order? = orders ∧
    Tallies (whole ∨ (lastOrder? orders x e.journal.toList).isSome = true) (e.queue.eventsFor x)
      pending ∧
    (lastOrder? orders x e.journal.toList = some false → pending = none)
  heeded : Heeded orders x e.journal.toList

omit [Device U] in
/-- What leaves a clock and its events alone and is not about it leaves its books in order. -/
theorem Clocked.of_spares (h : e.Clocked f orders whole x)
    (hsize : e.graph.nodes.size ≤ e'.graph.nodes.size) (hspares : e.graph.Spares f x e'.graph)
    (hevents : e'.graph.contains x = true → e'.queue.eventsFor x = e.queue.eventsFor x)
    (htells : Tells (· ≠ x) e e') : e'.Clocked f orders whole x := by
  obtain ⟨hs, hjournal, hothers⟩ := htells
  have hothers : ∀ a ∈ hs, a.about? ≠ some x := fun a ha hx => hothers a ha x hx rfl
  refine ⟨h.added.trans_le hsize, fun n' hn' => ?_, ?_⟩
  · obtain ⟨n, hn, hrole, hbecomes⟩ := hspares n' hn'
    obtain ⟨hnone, u, pending, hbody, hclock, horders, htally, hlast⟩ := h.clock n hn
    have hbody' : n'.body = .device (f u) := by
      rw [hbody] at hbecomes
      cases hb : n'.body with
      | subgraph =>
        rw [hb] at hbecomes
        exact hbecomes.elim
      | device v =>
        rw [hb] at hbecomes
        have hsome : u.clock?.isSome = true := by rw [hclock]; rfl
        rw [hbecomes u hsome rfl]
    rw [hevents (Graph.contains_iff.2 ⟨n', hn'⟩), hjournal, lastOrder?_append hothers]
    exact ⟨hrole.trans hnone, u, pending, hbody', hclock, horders, htally, hlast⟩
  · rw [hjournal]
    exact heeded_append h.heeded hothers

/-- A clock reacts, and its books agree afterwards. -/
theorem clocked_reactQuietly {n : Node U} (hadded : x.index < e.graph.nodes.size)
    (hn : e.graph.node? x = some n) (hrole : n.registration = none)
    (hheeded : Heeded orders x e.journal.toList) {script : Script CatalogueUnit}
    (h : script.Leaves x (fun v q => v.order? = orders ∧ ∃ after, v.clock? = some after ∧
      Tallies (whole ∨ (lastOrder? orders x e.journal.toList).isSome = true) (q.eventsFor x) after ∧
      (lastOrder? orders x e.journal.toList = some false → after = none)) e.queue) (unit : U) :
    (e.reactQuietly x unit (f <$> script)).Clocked f orders whole x := by
  have hleaves : (f <$> script).Leaves x (fun w q => ∃ v, w = f v ∧ v.order? = orders ∧
      ∃ after, v.clock? = some after ∧
      Tallies (whole ∨ (lastOrder? orders x e.journal.toList).isSome = true) (q.eventsFor x) after ∧
      (lastOrder? orders x e.journal.toList = some false → after = none)) e.queue :=
    Script.Leaves.map (h.mono fun v q hv => ⟨v, rfl, hv⟩)
  obtain ⟨v, hv, horders, after, hclock, htally, hlast⟩ :=
    leaves_carryOut (Device.label unit) hleaves
  obtain ⟨hs, hjournal, hothers⟩ : Tells (· ≠ x) e (e.reactQuietly x unit (f <$> script)) :=
    .reactQuietly e x unit _
  have hothers : ∀ a ∈ hs, a.about? ≠ some x := fun a ha hx => hothers a ha x hx rfl
  obtain ⟨-, hgraph, -⟩ := carryOut_spec (P := fun _ => True) x (Device.label unit) (f <$> script)
    (.of_forall (fun _ => ⟨⟩) _) e
  have hnodes : (e.reactQuietly x unit (f <$> script)).graph =
      e.graph.modifyNode x fun n => { n with body := .device (f v) } := by
    rw [← hv, ← hgraph]
    rfl
  refine ⟨?_, fun n' hn' => ?_, ?_⟩
  · rw [hnodes, Graph.size_modifyNode]
    exact hadded
  · rw [hnodes, Graph.node?_modifyNode, if_pos rfl, hn] at hn'
    cases hn'
    rw [hjournal, lastOrder?_append hothers]
    exact ⟨hrole, v, after, rfl, hclock, horders, htally, hlast⟩
  · rw [hjournal]
    exact heeded_append hheeded hothers

/-- Another unit reacts. -/
theorem Clocked.reactQuietly_of_ne (h : e.Clocked f orders whole x) {target : UnitId}
    (hne : target ≠ x) (unit : U) (script : Script U) :
    (e.reactQuietly target unit script).Clocked f orders whole x := by
  obtain ⟨unit', hgraph⟩ := graph_reactQuietly e target unit script
  apply h.of_spares
  · rw [hgraph, Graph.size_modifyNode]
  · rw [hgraph]
    exact Graph.spares_modifyNode _ _ (fun _ => rfl) fun _ _ hx => absurd hx hne
  · exact fun _ => eventsFor_carryOut hne (Device.label unit) script e
  · exact .reactQuietly e target unit script

omit [Device U] in
/-- When its event falls due, a clock is going. -/
theorem Clocked.eventsFor_eq (h : e.Clocked f orders whole x) {event : Event}
    (hevent : event ∈ e.queue.eventsFor x) (hx : e.graph.contains x = true) :
    e.queue.eventsFor x = [event] ∧ lastOrder? orders x e.journal.toList ≠ some false := by
  obtain ⟨n, hn⟩ := Graph.contains_iff.1 hx
  obtain ⟨-, u, pending, -, -, -, htally, hlast⟩ := h.clock n hn
  obtain ⟨hone, hpending⟩ := htally.eq_of_mem hevent
  refine ⟨hone, fun hstopped => ?_⟩
  rw [hlast hstopped] at hpending
  cases hpending

section Moves

variable (hf : Faithful f)
include hf

/-- Whatever a unit receives, the books of a clock agree afterwards. -/
theorem clocked_received (h : e.Clocked f orders whole x) {target : UnitId} {n : Node U} {unit : U}
    (hn : e.graph.node? target = some n) (hu : n.body = .device unit) (inlet : Nat)
    (message : Message) : (e.received target unit inlet message).Clocked f orders whole x := by
  by_cases hx : target = x
  · subst hx
    obtain ⟨hrole, u, pending, hbody, hclock, horders, htally, hlast⟩ := h.clock n hn
    rw [hbody] at hu
    cases hu
    have hrecord : (e.record (.received target inlet message)).journal.toList =
        e.journal.toList ++ [.received target inlet message] := Array.toList_push
    rw [received, hf.receive]
    apply clocked_reactQuietly (e := e.record (.received target inlet message)) h.added hn hrole
    · rw [hrecord]
      exact heeded_concat h.heeded fun _ heq => by cases heq
    · apply (CatalogueUnit.leaves_receive hclock htally inlet message _).mono
      intro v q hv
      obtain ⟨hsame, after, hafter, htallies, hstops, hkeeps⟩ := hv
      refine ⟨hsame.trans horders, after, hafter, ?_⟩
      rw [hrecord, lastOrder?_received, ← horders]
      cases horder : u.order? inlet message with
      | none =>
        rw [horder] at htallies
        rw [Option.none_or, horders]
        refine ⟨htallies.mono .inl, fun hfalse => ?_⟩
        rw [hkeeps horder]
        exact hlast hfalse
      | some order =>
        rw [horder] at htallies
        exact ⟨htallies.mono fun _ => .inr rfl, fun hfalse => hstops (horder.trans hfalse)⟩
  · have hrecord : (e.record (.received target inlet message)).Clocked f orders whole x :=
      h.of_spares le_rfl (Graph.spares_of_nodes rfl) (fun _ => rfl)
        (.record e fun y hy => Option.some.inj hy ▸ hx)
    exact hrecord.reactQuietly_of_ne hx unit _

/-- What happens besides that an event falls due or is answered leaves the books of a clock in order.
-/
theorem clocked_of_stride (hm : Stride own e e') (h : e.Clocked f orders whole x) :
    e'.Clocked f orders whole x := by
  cases hm with
  | ripple hr =>
    cases hr with
    | report r =>
      exact h.of_spares le_rfl (Graph.spares_of_nodes rfl) (fun _ => rfl)
        (.record e fun _ hy => by cases hy)
    | collect name message =>
      exact h.of_spares le_rfl (Graph.spares_of_nodes rfl) (fun _ => rfl)
        (.record { e with external := e.external.push (name, message) } fun _ hy => by cases hy)
    | defer inlet message hn hu hc =>
      refine h.of_spares ?_ ?_ (fun _ => rfl) (.record (e.modifyNode _ _) fun _ hy => by cases hy)
      · exact (Graph.size_modifyNode ..).ge
      · exact Graph.spares_modifyNode _ _ (fun _ => rfl) fun _ _ _ => .refl (fun _ _ _ h => h) _
    | receive inlet message hn hu hc => exact clocked_received hf h hn hu inlet message
  | pool pool =>
    exact h.of_spares le_rfl (Graph.spares_of_nodes rfl) (fun _ => rfl) (.of_eq rfl)
  | take _ hnext =>
    obtain ⟨n, rest, -, -, rfl⟩ := nextPending?_eq_some hnext
    refine h.of_spares (Graph.size_modifyNode ..).ge ?_ (fun _ => rfl) (.of_eq rfl)
    exact Graph.spares_modifyNode _ _ (fun _ => rfl) fun _ _ _ => .refl (fun _ _ _ h => h) _
  | @compute id n unit unit' ins outlets outs first last _ hn hu hp =>
    refine h.of_spares (Graph.size_modifyNode ..).ge ?_ (fun _ => rfl)
      (.record e fun _ hy => by cases hy)
    refine Graph.spares_modifyNode (g := { e.graph with names := _ }) id (fun _ => rfl) ?_
    intro m hm hx
    cases hn.symm.trans hm
    rw [hu]
    exact unmoved_of_process hf hp
  | receive inlet message _ hn hu => exact clocked_received hf h hn hu inlet message
  | calm =>
    refine h.of_spares (Graph.size_modifyNode ..).ge ?_ (fun _ => rfl) (.of_eq rfl)
    exact Graph.spares_modifyNode _ _ (fun _ => rfl) fun _ _ _ => .refl (fun _ _ _ h => h) _

theorem clocked_of_strides (hm : Strides own e e') (h : e.Clocked f orders whole x) :
    e'.Clocked f orders whole x := by
  induction hm with
  | refl => exact h
  | tail _ hstride ih => exact clocked_of_stride hf hstride ih

/-! ## Events that fall due -/

/-- A clock answers its event, which was the only one. -/
theorem clocked_of_answer {n : Node U} (hadded : x.index < e.graph.nodes.size)
    (hn : e.graph.node? x = some n) (hrole : n.registration = none)
    (hheeded : Heeded orders x e.journal.toList) {u : CatalogueUnit} {pending : Option EventId}
    (hclock : u.clock? = some pending) (horders : u.order? = orders)
    (hnone : e.queue.eventsFor x = []) (hgoing : lastOrder? orders x e.journal.toList ≠ some false)
    {event : Event} (hevent : event.target = x) :
    (e.reactQuietly event.target (f u) (e.dueScript event (f u))).Clocked f orders whole x := by
  rw [dueScript, hf.emit, hevent]
  apply clocked_reactQuietly hadded hn hrole hheeded
  apply (CatalogueUnit.leaves_emit hclock hnone event.outlet event.message).mono
  intro v q hv
  obtain ⟨hsame, after, hafter, htallies⟩ := hv
  exact ⟨hsame.trans horders, after, hafter, htallies, fun hstopped => absurd hstopped hgoing⟩

/-- An event falls due and is answered, with all that follows from the answer. -/
theorem clocked_of_drainOne? (h : e.Clocked f orders whole x) (hs : e.Settled) {stop : Float}
    (hone : e.drainOne? stop = some e') : e'.Clocked f orders whole x := by
  obtain ⟨event, queue, trace, hpop, hback, -⟩ := drainOne?_eq_some hone
  have htarget : (e.onTime event).target = event.target := target_onTime e event
  have hlive : e.graph.contains event.target = true := by
    apply hs.events
    rw [(Queue.popBefore?_eq_some hpop).1]
    exact List.mem_cons_self
  obtain ⟨hfirst, hothers⟩ := Queue.eventsFor_popBefore? hpop
  by_cases hx : event.target = x
  · -- the books do not agree until the unit has answered
    subst hx
    have hmem : event ∈ e.queue.eventsFor event.target := by
      rw [hfirst]
      exact List.mem_cons_self
    obtain ⟨honly, hgoing⟩ := h.eventsFor_eq hmem hlive
    have hnone : queue.eventsFor event.target = [] := (List.cons.inj (hfirst.symm.trans honly)).2
    have hfell : ({ e with queue }.record (.fellDue (e.onTime event))).journal.toList =
        e.journal.toList ++ [.fellDue (e.onTime event)] := Array.toList_push
    have hheeded : Heeded orders event.target
        ({ e with queue }.record (.fellDue (e.onTime event))).journal.toList := by
      rw [hfell]
      exact heeded_concat h.heeded fun _ _ _ => hgoing
    obtain ⟨n, hn⟩ := Graph.contains_iff.1 hlive
    obtain ⟨hrole, u, pending, hbody, hclock, horders, -, -⟩ := h.clock n hn
    generalize e.onTime event = late at *
    cases hback with
    | gone hn' =>
      rw [htarget] at hn'
      cases hn'.symm.trans hn
    | subgraph hn' hu _ =>
      rw [htarget] at hn'
      cases hn.symm.trans hn'
      cases hbody.symm.trans hu
    | unit hn' hu hrun =>
      rw [htarget] at hn'
      cases hn.symm.trans hn'
      cases hbody.symm.trans hu
      apply clocked_of_strides hf (hrun.strides fun _ => False)
      have hlast : lastOrder? orders event.target
          ({ e with queue }.record (.fellDue late)).journal.toList ≠ some false := by
        rw [hfell, lastOrder?_fellDue]
        exact hgoing
      exact clocked_of_answer (e := { e with queue }.record (.fellDue late)) hf h.added hn' hrole
        hheeded hclock horders hnone hlast htarget
  · have hpopped : ({ e with queue }.record (.fellDue (e.onTime event))).Clocked f orders whole x := by
      refine h.of_spares le_rfl (Graph.spares_of_nodes rfl) (fun _ => (hothers x hx).symm) ?_
      refine .record { e with queue } fun y hy => ?_
      rw [← Option.some.inj hy, htarget]
      exact hx
    cases hback with
    | gone hn => exact hpopped
    | subgraph hn hu hrun => exact clocked_of_strides hf (hrun.strides fun _ => False) hpopped
    | unit hn hu hrun =>
      apply clocked_of_strides hf (hrun.strides fun _ => False)
      apply hpopped.reactQuietly_of_ne
      rw [htarget]
      exact hx

theorem clocked_of_drain {stop : Float} {rounds : Nat} (h : e.Clocked f orders whole x)
    (hs : e.Settled) (hd : drain stop rounds e = .ok ⟨⟩ e') : e'.Clocked f orders whole x := by
  induction rounds generalizing e with
  | zero => cases hd
  | succ rounds ih =>
    rw [drain, run_get_bind] at hd
    cases hone : e.drainOne? stop with
    | none =>
      simp only [hone] at hd
      cases hd
      exact h
    | some e₁ =>
      simp only [hone] at hd
      have hsettled := settled_of_moves (moves_drainOne? (fun _ => True) hone) hs
      exact ih (clocked_of_drainOne? hf h hs hone) hsettled hd

/-! ## Commands -/

/-- While a block is computed, clocks tick, and at its end the books agree. -/
theorem clocked_of_process {input samples : Samples} {outLength : Nat}
    (hp : process input outLength e = .ok samples e') (hs : e.Settled)
    (h : e.Clocked f orders whole x) : e'.Clocked f orders whole x := by
  obtain ⟨drained, plan, planned, ended, hdrain, hplan, hplay, rfl⟩ := process_eq_ok hp
  have hopens : (openBlock input e).Settled :=
    ⟨hs.events, (Names.sameSeats_clearBuses _).once hs.once⟩
  have hopened : (openBlock input e).Clocked f orders whole x :=
    h.of_spares le_rfl (Graph.spares_of_nodes rfl) (fun _ => rfl) (.record _ fun _ hy => by cases hy)
  have hdrained := clocked_of_drain hf hopened hopens hdrain
  obtain ⟨g, hg, rfl⟩ := compile_eq_ok.1 hplan
  have hnodes : g.nodes = drained.graph.nodes := by
    rcases Graph.compile_cases hg with ⟨-, rfl⟩ | ⟨-, d, -, -, rfl⟩ <;> rfl
  have hplanned : ({ drained with graph := g } : Engine U).Clocked f orders whole x :=
    hdrained.of_spares (by rw [hnodes]) (Graph.spares_of_nodes hnodes) (fun _ => rfl) (.of_eq rfl)
  have hended := clocked_of_strides hf (strides_play hplay) hplanned
  exact hended.of_spares le_rfl (Graph.spares_of_nodes rfl) (fun _ => rfl) (.of_eq rfl)

omit hf [Device U] in
/-- A clock goes by no name. -/
theorem Clocked.not_mem_receivers (h : e.Clocked f orders whole x) (hg : e.graph.Sound)
    (name : String) : x ∉ e.graph.names.receivers name := by
  intro hx
  obtain ⟨s, hs⟩ := Names.exists_seat_of_receivers hg.registered.names hx
  obtain ⟨role, hrole, -⟩ := Option.map_eq_some_iff.1 (hg.registered.seated.1 hs)
  obtain ⟨n, hn, hrole⟩ := Option.bind_eq_some_iff.1 hrole
  rw [(h.clock n hn).1] at hrole
  cases hrole

/-- Any deed that is not aimed at a clock leaves its books in order. -/
theorem clocked_of_deed (hd : Deed command e e') (hx : ¬ command.Aims x) (hg : e.graph.Sound)
    (hs : e.Settled) (h : e.Clocked f orders whole x) : e'.Clocked f orders whole x := by
  cases hd with
  | idle => exact h
  | declined =>
    exact h.of_spares le_rfl (Graph.spares_of_nodes rfl) (fun _ => rfl) (.withGraph e _)
  | edited hedit =>
    have hinherits := inherits_of_edited (heeds_unmoved hf) hedit
    have hspares := Graph.spares_of_inherits (x := x) hinherits h.added
    exact h.of_spares hinherits.size hspares (fun _ => rfl) (.withGraph e _)
  | removed hremove =>
    have hinherits := Edit.inherits_remove (heeds_unmoved hf) hremove
    have hspares := Graph.spares_of_inherits (x := x) hinherits h.added
    refine h.of_spares hinherits.size hspares (fun hlive => ?_) (.withGraph e _)
    apply Queue.eventsFor_foldl_removeUnit
    obtain ⟨⟨n, hn, -⟩, -⟩ := Edit.remove_eq_ok hremove
    rw [Graph.mem_descendants hg.nested (Graph.contains_iff.2 ⟨n, hn⟩)]
    exact ((Edit.contains_of_remove hg hremove x).1 hlive).2
  | @scheduled target n outlet message hn hout haims =>
    have hne : target ≠ x := fun heq => hx (heq ▸ haims)
    exact h.of_spares le_rfl (Graph.spares_of_nodes rfl)
      (fun _ => Queue.eventsFor_insert_of_ne hne message) (.of_eq rfl)
  | cancelled target outlet id haims =>
    have hne : target ≠ x := fun heq => hx (heq ▸ haims)
    exact h.of_spares le_rfl (Graph.spares_of_nodes rfl)
      (fun _ => Queue.eventsFor_remove_of_ne hne id) (.of_eq rfl)
  | sent name message =>
    refine h.of_spares le_rfl (Graph.spares_of_nodes rfl) (fun _ => ?_) (.of_eq rfl)
    exact Queue.eventsFor_foldl_insert (h.not_mem_receivers hg name) message
  | unheard name =>
    exact h.of_spares le_rfl (Graph.spares_of_nodes rfl) (fun _ => rfl)
      (.record e fun _ hy => by cases hy)
  | listened externals =>
    exact h.of_spares le_rfl (Graph.spares_of_nodes rfl) (fun _ => rfl) (.of_eq rfl)
  | taken => exact h.of_spares le_rfl (Graph.spares_of_nodes rfl) (fun _ => rfl) (.of_eq rfl)
  | planned hplan =>
    obtain ⟨g, hg, rfl⟩ := compile_eq_ok.1 hplan
    have hnodes : g.nodes = e.graph.nodes := by
      rcases Graph.compile_cases hg with ⟨-, rfl⟩ | ⟨-, d, -, -, rfl⟩ <;> rfl
    exact h.of_spares (by rw [hnodes]) (Graph.spares_of_nodes hnodes) (fun _ => rfl) (.of_eq rfl)
  | played _ hp => exact clocked_of_process hf hp hs h

/-! ## Runs -/

/-- A clock that has just been added has no events yet. -/
theorem clocked_of_added {owner : Option UnitId} {u : CatalogueUnit} {remembered : Option EventId}
    (hu : u.clock? = some remembered) (h : Reachable settings e)
    (hadd : perform (.addUnit owner (f u)) e = .ok (.added x) e') :
    e'.Clocked f u.order? (remembered = none) x := by
  obtain ⟨g, hnode, rfl⟩ := graph_of_addUnit hadd
  obtain ⟨hindex, n, hn, hbody, hrole⟩ := Edit.node?_add hnode
  -- nothing has been told of the unit, and nothing waits for it
  obtain ⟨hs, hjournal, hothers⟩ : Tells (· ≠ x) e (e.withGraph g) := .withGraph e g
  have hnew : ∀ a ∈ (e.withGraph g).journal.toList, a.about? ≠ some x := by
    intro a ha hx
    rw [hjournal] at ha
    rcases List.mem_append.1 ha with ha | ha
    · have hlt := told_of_reachable h a ha x hx
      omega
    · exact hothers a ha x hx rfl
  have hnone : e.queue.eventsFor x = [] := by
    refine List.eq_nil_iff_forall_not_mem.2 fun event hevent => ?_
    obtain ⟨hmem, rfl⟩ := Queue.mem_eventsFor.1 hevent
    have hlt := Graph.lt_size_of_contains ((settled_of_reachable h).events event hmem)
    omega
  refine ⟨Graph.lt_size_of_node? hn, fun n' hn' => ?_, ?_⟩
  · cases hn.symm.trans hn'
    have hunnamed : n.registration = none := by
      rw [hrole]
      show Device.registration (f u) = none
      rw [hf.registration]
      cases u with
      | metro | delay => rfl
      | _ => cases hu
    have hquiet : lastOrder? u.order? x ([] ++ (e.withGraph g).journal.toList) = none :=
      lastOrder?_append hnew
    rw [List.nil_append] at hquiet
    refine ⟨hunnamed, u, remembered, hbody, hu, rfl, ?_, fun hfalse => ?_⟩
    · show Tallies _ (e.queue.eventsFor x) remembered
      rw [hnone, hquiet]
      exact .nil fun hw => hw.resolve_right Bool.false_ne_true
    · rw [hquiet] at hfalse
      cases hfalse
  · have hnothing : Heeded u.order? x [] := fun pre event post heq => by simp at heq
    exact heeded_append hnothing hnew

end Moves

/-- A run in which a unit is added and then left alone: the host schedules no event for it, and
cancels none. -/
inductive Unattended (settings : Settings) (unit : U) (x : UnitId) : Engine U → Prop
  | added {owner : Option UnitId} {e e' : Engine U} : Reachable settings e →
      perform (.addUnit owner unit) e = .ok (.added x) e' → Unattended settings unit x e'
  | step {e e' : Engine U} {c : Command U} : Unattended settings unit x e → ¬ c.Aims x →
      e.after c = some e' → Unattended settings unit x e'

theorem Unattended.reachable {unit : U} (h : Unattended settings unit x e) : Reachable settings e := by
  induction h with
  | added hreach hadd => exact hreach.step (by rw [after, hadd])
  | step _ _ hafter ih => exact ih.step hafter

theorem clocked_of_unattended (hf : Faithful f) {u : CatalogueUnit} {remembered : Option EventId}
    (hu : u.clock? = some remembered) (h : Unattended settings (f u) x e) :
    e.Clocked f u.order? (remembered = none) x := by
  induction h with
  | added hreach hadd => exact clocked_of_added hf hu hreach hadd
  | step hrun haims hafter ih =>
    have hreach := hrun.reachable
    have hsound := (kept_of_reachable .any hreach).sound
    exact clocked_of_deed hf (deed_of_after hafter) haims hsound (settled_of_reachable hreach) ih

/-- A list of commands that are not aimed at a unit leaves it alone. -/
theorem Unattended.run {unit : U} {commands : List (Command U)} (h : Unattended settings unit x e)
    (haims : ∀ c ∈ commands, ¬ c.Aims x) (hrun : commands.foldlM after e = some e') :
    Unattended settings unit x e' := by
  induction commands generalizing e with
  | nil =>
    cases hrun
    exact h
  | cons c commands ih =>
    rw [List.foldlM_cons] at hrun
    obtain ⟨e₁, hafter, hrun⟩ := Option.bind_eq_some_iff.1 hrun
    obtain ⟨hc, hcommands⟩ := List.forall_mem_cons.1 haims
    exact ih (h.step hc hafter) hcommands hrun

/-- A `metro`, which ticks every 5 ms and can be set going by name, and a `delay`, which sets it going
anew 3 ms after each tick. -/
def clockwork : Engine CatalogueUnit where
  settings := smallBlocks
  graph :=
    { nodes :=
        #[ some { body := .device (.metro ⟨5, none⟩), ports := { messageInlets := 2, messageOutlets := 1 } },
          some { body := .device (.messageReceiver ⟨.ofString "go"⟩), ports := { messageOutlets := 1 }
                 registration := some (.receiver (.ofString "go")) },
          some { body := .device (.delay ⟨3, none⟩), ports := { messageInlets := 2, messageOutlets := 1 } } ]
      connections := [⟨⟨1⟩, 0, ⟨0⟩, 0⟩, ⟨⟨0⟩, 0, ⟨2⟩, 0⟩, ⟨⟨2⟩, 0, ⟨0⟩, 0⟩]
      names := { blockSize := 8, receiverLists := [(.ofString "go", [⟨1⟩])] }
      pool := { blockSize := 8 }
      plan := some { steps := #[], bindings := #[{}, {}, {}], buffers := 0 } }

theorem unattended_clockwork :
    Unattended smallBlocks (CatalogueUnit.metro ⟨5, none⟩) ⟨0⟩ clockwork := by
  have hbuilt : ((build smallBlocks []).bind fun e =>
      match perform (.addUnit none (CatalogueUnit.metro ⟨5, none⟩)) e with
      | .ok (.added ⟨0⟩) e₁ =>
        [ .addUnit none (CatalogueUnit.messageReceiver ⟨.ofString "go"⟩),
          .addUnit none (.delay ⟨3, none⟩), .connect ⟨⟨1⟩, 0, ⟨0⟩, 0⟩, .connect ⟨⟨0⟩, 0, ⟨2⟩, 0⟩,
          .connect ⟨⟨2⟩, 0, ⟨0⟩, 0⟩, .compile ].foldlM after e₁
      | _ => none) = some clockwork := by cbv
  obtain ⟨e, hnew, hbuilt⟩ := Option.bind_eq_some_iff.1 hbuilt
  split at hbuilt
  · next e₁ hadd =>
    have hadded := Unattended.added (roomy_of_build hnew).reachable hadd
    exact hadded.run (by simp [Command.Aims]) hbuilt
  · cases hbuilt

end Engine
end Patchbay
