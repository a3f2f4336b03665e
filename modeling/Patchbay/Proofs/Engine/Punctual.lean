import Patchbay.Proofs.Engine.Clock
import Patchbay.Proofs.Engine.Receiving
import Patchbay.Proofs.Engine.Waking

/-!
# Events in order of time

An event that is late counts as due when its block begins, so no block hands back an event that is
earlier than one of a block before it. Within a block, events that are scheduled meanwhile take part.
None of these lies before the one that brought it about, unless it is that of a `delay` that is set to a
time below zero. So events fall due in order of time (`falls_due_in_order`) for as long as no `delay` is
set so; the catalogue does not keep one from it (`falls_due_out_of_order`).
-/

namespace Patchbay

/-- When an event fell due. -/
def Happening.due? : Happening → Option Float
  | .fellDue event => some event.timestamp
  | _ => none

/-- The times at which events fell due, oldest first. -/
def Journal.dueTimes (j : Journal) : List Float := j.toList.filterMap Happening.due?

/-- Whether a `delay` receives a number that sets it back in time. -/
def Graph.SetsBack (g : Graph CatalogueUnit) : Happening → Prop
  | .received id inlet message => inlet = 1 ∧ (∃ wait, g.Delays id wait) ∧
      ∃ value, message.floatAt 0 = some value ∧ ¬ 0 ≤ widen value
  | _ => False

namespace Journal

@[simp]
theorem dueTimes_append (j : Journal) (hs : List Happening) :
    dueTimes (j ++ hs.toArray) = j.dueTimes ++ hs.filterMap Happening.due? := by
  simp [dueTimes]

@[simp]
theorem dueTimes_push (j : Journal) (h : Happening) :
    dueTimes (j.push h) = j.dueTimes ++ h.due?.toList := by
  rw [Array.push_eq_append, dueTimes_append]
  cases hdue : h.due? <;> simp [hdue]

end Journal

namespace Engine

/-! ## What falls due -/

section Due

variable {U : Type} [Device U] {own : UnitId → Prop} {e e' : Engine U}

/-- No event falls due in a script. -/
theorem due?_happenings {α : Type} (id : UnitId) (label : String) (script : Script α) (q : Queue) :
    (script.happenings id label q).filterMap Happening.due? = [] :=
  List.filterMap_eq_nil_iff.2
    (script.forall_happenings (fun _ => rfl) (fun _ _ => rfl) (fun _ => rfl) q)

theorem dueTimes_reactQuietly (e : Engine U) (id : UnitId) (unit : U) (script : Script U) :
    (e.reactQuietly id unit script).journal.dueTimes = e.journal.dueTimes := by
  rw [journal_reactQuietly, Journal.dueTimes_append, due?_happenings, List.append_nil]

theorem dueTimes_received (e : Engine U) (target : UnitId) (unit : U) (inlet : Nat)
    (message : Message) :
    (e.received target unit inlet message).journal.dueTimes = e.journal.dueTimes := by
  rw [received, dueTimes_reactQuietly]
  exact (Journal.dueTimes_push _ _).trans (List.append_nil _)

/-- No event falls due in the step of a unit. -/
theorem dueTimes_of_stride (h : Stride own e e') : e'.journal.dueTimes = e.journal.dueTimes := by
  cases h with
  | ripple h =>
    cases h with
    | report | collect | defer => exact (Journal.dueTimes_push _ _).trans (List.append_nil _)
    | receive => exact dueTimes_received ..
  | receive => exact dueTimes_received ..
  | compute => exact (Journal.dueTimes_push _ _).trans (List.append_nil _)
  | pool | calm => rfl
  | take _ hnext =>
    obtain ⟨_, _, _, _, rfl⟩ := nextPending?_eq_some hnext
    rfl

theorem dueTimes_of_strides (h : Strides own e e') : e'.journal.dueTimes = e.journal.dueTimes := by
  induction h with
  | refl => rfl
  | tail _ hstep ih => exact (dueTimes_of_stride hstep).trans ih

/-- The journal only grows in the step of a unit. -/
theorem grows_of_stride (h : Stride own e e') : e.journal.toList <+: e'.journal.toList := by
  have hrecord : ∀ x, e.journal.toList <+: (e.journal.push x).toList := fun x => by simp
  cases h with
  | ripple h =>
    cases h with
    | report | collect | defer => exact hrecord _
    | receive =>
      rw [journal_received]
      simp
  | receive =>
    rw [journal_received]
    simp
  | compute => exact hrecord _
  | pool | calm => exact List.prefix_rfl
  | take _ hnext =>
    obtain ⟨_, _, _, _, rfl⟩ := nextPending?_eq_some hnext
    exact List.prefix_rfl

theorem grows_of_strides (h : Strides own e e') : e.journal.toList <+: e'.journal.toList := by
  induction h with
  | refl => exact List.prefix_rfl
  | tail _ hstep ih => exact ih.trans (grows_of_stride hstep)

omit [Device U] in
/-- Units are told of an edit; no event falls due. -/
theorem dueTimes_withGraph (e : Engine U) (g : Graph U) :
    (e.withGraph g).journal.dueTimes = e.journal.dueTimes := by
  have hnone : (g.notices.toList.map Happening.told).filterMap Happening.due? = [] := by
    simp [List.filterMap_map, Function.comp_def, Happening.due?]
  have h := Journal.dueTimes_append e.journal (g.notices.toList.map .told)
  rw [hnone, List.append_nil, ← Array.toList_map, Array.toArray_toList] at h
  exact h

end Due

/-! ## What is scheduled meanwhile -/

variable {g : Graph CatalogueUnit} {t : Float} {e e' e'' : Engine CatalogueUnit}

/-- That no `delay` is set to a time below zero, and that those that there are were there before. -/
structure Forward (g : Graph CatalogueUnit) (e : Engine CatalogueUnit) : Prop where
  delays : ∀ id wait, e.graph.Delays id wait → 0 ≤ wait ∧ ∃ wait, g.Delays id wait
  ordered : e.queue.Ordered

/-- What becomes of an engine while an event is handed back that is due at a time: each event that is
added is due then or later. -/
structure Ahead (g : Graph CatalogueUnit) (t : Float) (e e' : Engine CatalogueUnit) : Prop
    extends Forward g e' where
  adds : e.queue.Adds (fun event => t ≤ event.timestamp) e'.queue
  due : e'.journal.dueTimes = e.journal.dueTimes

theorem Ahead.refl (h : Forward g e) : Ahead g t e e := ⟨h, .refl _, rfl⟩

theorem Ahead.trans (h : Ahead g t e e') (h' : Ahead g t e' e'') : Ahead g t e e'' :=
  ⟨h'.toForward, h.adds.trans h'.adds, h'.due.trans h.due⟩

/-- A `delay` after a change of one node: it is another one, or that node. -/
theorem delays_modifyNode {x y : UnitId} {f : Node CatalogueUnit → Node CatalogueUnit} {wait : Float}
    (h : (g.modifyNode x f).Delays y wait) : g.Delays y wait ∨ y = x ∧
      ∃ n u, g.node? x = some n ∧ (f n).body = .device u ∧ u.delay? = some wait := by
  obtain ⟨u, ⟨n', hn', hu⟩, hwait⟩ := h
  rw [Graph.node?_modifyNode] at hn'
  split at hn'
  · next hx =>
    obtain ⟨n, hn, rfl⟩ := Option.map_eq_some_iff.1 hn'
    exact .inr ⟨hx, n, u, hx ▸ hn, hu, hwait⟩
  · exact .inl ⟨u, ⟨n', hn', hu⟩, hwait⟩

section Cascades

variable (ht : 0 ≤ t)
include ht

/-- A unit reacts at a time, and schedules what is due then or later. -/
theorem ahead_reactQuietly {x : UnitId} {u : CatalogueUnit} {script : Script CatalogueUnit}
    {sent : Option Symbol → Message → Prop} {scheduled : Message → Prop} (h : Forward g e)
    (hset : script.Ends fun v => ∀ wait, v.delay? = some wait → 0 ≤ wait ∧ ∃ wait, g.Delays x wait)
    (hposts : script.Posts sent scheduled)
    (hwait : ∀ m, scheduled m → ∃ wait, m.timestamp = t + wait ∧ 0 ≤ wait) :
    Ahead g t e (e.reactQuietly x u script) := by
  obtain ⟨hv, hgraph, -⟩ := carryOut_spec x (Device.label u) script hset e
  have hadds := adds_carryOut (P := fun event => t ≤ event.timestamp) hposts x (Device.label u)
    (fun event outlet m hm => ?_) e h.ordered
  · refine ⟨⟨fun id wait hdelays => ?_, hadds.1⟩, hadds.2, dueTimes_reactQuietly e x u script⟩
    have hmodified : (e.graph.modifyNode x fun n =>
        { n with body := .device (carryOut x (Device.label u) script e).1 }).Delays id wait := by
      rw [← hgraph]
      exact hdelays
    rcases delays_modifyNode hmodified with hold | ⟨rfl, m, v, -, hbody, hwait⟩
    · exact h.delays id wait hold
    · cases hbody
      exact hv wait hwait
  · obtain ⟨wait, htime, hwait⟩ := hwait m hm
    have hle : t ≤ t + wait := Double.le_add ht hwait
    show t ≤ (Queue.due m).timestamp
    rw [Queue.due_eq (htime ▸ (Double.le_iff.1 hle).2.1), htime]
    exact hle

/-- A unit receives a message that does not set it back. -/
theorem ahead_received {x : UnitId} {n : Node CatalogueUnit} {u : CatalogueUnit} {inlet : Nat}
    {message : Message} (h : Forward g e) (hn : e.graph.node? x = some n) (hu : n.body = .device u)
    (htime : message.timestamp = t) (hnice : ¬ g.SetsBack (.received x inlet message)) :
    Ahead g t e (e.received x u inlet message) := by
  have hold : ∀ wait, u.delay? = some wait → 0 ≤ wait ∧ ∃ wait, g.Delays x wait :=
    fun wait hwait => h.delays x wait ⟨u, ⟨n, hn, hu⟩, hwait⟩
  have hset : (u.receive inlet message (e.surroundings x)).Ends fun v => ∀ wait,
      v.delay? = some wait → 0 ≤ wait ∧ ∃ wait, g.Delays x wait := by
    have hkindred := CatalogueUnit.kindred_receive u inlet message (e.surroundings x)
    refine ((u.ends_receive_set inlet message _).and hkindred).mono fun v hv wait hwait => ?_
    rcases hv with ⟨hsame | ⟨hinlet, value, hvalue, hnew⟩, hkin⟩
    · exact hold wait (hsame ▸ hwait)
    · obtain ⟨wait', hwait'⟩ : ∃ wait', u.delay? = some wait' := by
        rw [← Option.isSome_iff_exists, ← hkin.delays, hnew]
        rfl
      have hdelays := (hold wait' hwait').2
      cases hnew.symm.trans hwait
      exact ⟨not_not.1 fun hneg => hnice ⟨hinlet, hdelays, value, hvalue, hneg⟩, hdelays⟩
  have hone : (0 : Float) ≤ 1 := by decide +kernel
  have hposts := CatalogueUnit.posts_receive u inlet message (e.surroundings x)
  have hreacts : Ahead g t (e.record (.received x inlet message)) (e.received x u inlet message) := by
    refine ahead_reactQuietly ht ⟨h.delays, h.ordered⟩ hset hposts fun m hm => ?_
    obtain ⟨wait, hm, hwait⟩ := hm
    exact ⟨wait, htime ▸ hm, hwait.elim (Double.le_of_le_of_le hone) fun h => (hold wait h).1⟩
  exact ⟨hreacts.toForward, hreacts.adds, dueTimes_received e x u inlet message⟩

omit ht in
/-- What a unit sends when it receives a message has the time of that message. -/
theorem time_of_mem_answers {x : UnitId} {u : CatalogueUnit} {inlet : Nat} {message : Message}
    {out : Outgoing} (h : out ∈ e.answers x u inlet message) :
    out.message.timestamp = message.timestamp := by
  have hposts := CatalogueUnit.posts_receive u inlet message (e.surroundings x)
  obtain ⟨-, ⟨-, hsends⟩ | ⟨_, -, hsends⟩⟩ := hposts.of_mem_sends h
  · exact hsends.1
  · exact hsends.1

/-- The time of the message that an errand is about. -/
def Errand.time : Errand → Float
  | .deliver _ _ message => message.timestamp
  | .dispatch out => out.message.timestamp

/-- In a cascade all messages have the same time, and nothing is scheduled before it. -/
theorem keeping_ahead (e : Engine CatalogueUnit) :
    Keeping (Ahead g t e) (fun errand => errand.time = t) fun x => ¬ g.SetsBack x where
  report r h := ⟨⟨h.delays, h.ordered⟩, h.adds, by
    rw [← h.due]
    exact (Journal.dueTimes_push _ _).trans (List.append_nil _)⟩
  collect name message h := ⟨⟨h.delays, h.ordered⟩, h.adds, by
    rw [← h.due]
    exact (Journal.dueTimes_push _ _).trans (List.append_nil _)⟩
  defer {e' target n u inlet message} h hn hu := by
    refine ⟨⟨fun id wait hdelays => ?_, h.ordered⟩, h.adds, ?_⟩
    · rcases delays_modifyNode hdelays with hold | ⟨rfl, m, v, hm, hv, hwait⟩
      · exact h.delays id wait hold
      · exact h.delays id wait ⟨v, ⟨m, hm, hv⟩, hwait⟩
    · rw [← h.due]
      exact (Journal.dueTimes_push _ _).trans (List.append_nil _)
  receive h htime hnice hn _ hu _ :=
    ⟨h.trans (ahead_received ht h.toForward hn hu htime hnice), fun _ hout =>
      (time_of_mem_answers hout).trans htime⟩
  pass _ htime _ _ _ := htime
  leave _ htime _ := htime
  call _ htime _ := htime

/-- Nothing that follows when an event is handed back is scheduled before it. -/
theorem HandsBack.ahead {event : Event} {trace : Trace} (h : HandsBack event e trace e')
    (hforward : Forward g e) (htime : event.timestamp = t)
    (hnice : ∀ entry ∈ trace, ¬ g.SetsBack entry.2) : Ahead g t e e' := by
  cases h with
  | gone => exact .refl hforward
  | subgraph _ _ hrun =>
    refine hrun.keeps (keeping_ahead ht e) hnice (.refl hforward) fun errand herrand => ?_
    rw [List.mem_singleton.1 herrand]
    exact htime
  | @unit n u trace _ hn hu hrun =>
    have hone : (0 : Float) ≤ 1 := by decide +kernel
    have hposts := CatalogueUnit.posts_emit u event.outlet event.message
    have hset : (u.emit event.outlet event.message).Ends fun v => ∀ wait, v.delay? = some wait →
        0 ≤ wait ∧ ∃ wait, g.Delays event.target wait :=
      (CatalogueUnit.ends_emit u event.outlet event.message).mono fun v hv wait hwait =>
        hforward.delays event.target wait ⟨u, ⟨n, hn, hu⟩, hv.symm.trans hwait⟩
    have hreacts : Ahead g t e (e.reactQuietly event.target u (e.dueScript event u)) := by
      refine ahead_reactQuietly ht hforward hset hposts fun m hm => ?_
      obtain ⟨wait, hm, hwait⟩ := hm
      exact ⟨wait, htime ▸ hm, Double.le_of_le_of_le hone hwait⟩
    refine hreacts.trans (hrun.keeps (keeping_ahead ht _) (List.forall_mem_append.1 hnice).2
      (.refl hreacts.toForward) fun errand herrand => ?_)
    obtain ⟨out, hout, rfl⟩ := List.mem_map.1 herrand
    obtain ⟨-, ⟨-, hsends⟩ | ⟨_, -, hsends⟩⟩ := hposts.of_mem_sends hout
    · exact hsends.1.trans htime
    · exact hsends.1.trans htime

end Cascades

/-! ## A block -/

/-- That no `delay` is set to a time below zero in one engine, or set to one on the way to a later
engine. -/
structure Onward (e e' : Engine CatalogueUnit) : Prop where
  set : ∀ id wait, e.graph.Delays id wait → 0 ≤ wait
  told : ∀ x ∈ e'.journal.toList.drop e.journal.size, ¬ e.graph.SetsBack x

theorem Onward.of_prefix (h : Onward e e'') (hgrows : e'.journal.toList <+: e''.journal.toList) :
    Onward e e' :=
  ⟨h.set, fun x hx => h.told x ((hgrows.drop _).subset hx)⟩

/-- One event after another is handed back. -/
abbrev HandsOn (stop : Float) : Engine CatalogueUnit → Engine CatalogueUnit → Prop :=
  Relation.ReflTransGen fun e e' => e.drainOne? stop = some e'

/-- That events have fallen due in order of time up to a moment in a block, and that what is still due in
it does not lie before them. -/
structure Punctual (e m : Engine CatalogueUnit) : Prop extends Forward e.graph m where
  start : m.blockStart = e.blockStart
  sorted : m.journal.dueTimes.Pairwise (· ≤ ·)
  pending : ∀ event ∈ m.queue.events, event.timestamp < e.blockEnd →
    ∀ t ∈ m.journal.dueTimes, t ≤ dueTime e.blockStart event
  ended : e.blockEnd.isNaN = false → ∀ t ∈ m.journal.dueTimes, t ≤ e.blockEnd

section Block

variable {settings : Settings} {m m' : Engine CatalogueUnit}

/-- The next event does not fall due before those that have, nor after those that are left. -/
theorem Punctual.drainOne? (h : Punctual e m) (htimely : e.Timely settings)
    (hduration : ¬ settings.blockDuration < 0) (hgrows : e.journal.toList <+: m.journal.toList)
    (hone : m.drainOne? e.blockEnd = some m') (honward : Onward e m') : Punctual e m' := by
  obtain ⟨event, queue, trace, hpop, hback, hjournal⟩ := drainOne?_eq_some hone
  obtain ⟨hevents, hlt⟩ := Queue.popBefore?_eq_some hpop
  have hmem : event ∈ m.queue.events := hevents ▸ List.mem_cons_self
  have hend := (Double.lt_iff.1 hlt).2.1
  obtain ⟨hzero, hle⟩ := htimely.blockEnd hduration hend
  have hstart := (Double.le_iff.1 hle).1
  obtain ⟨hlow, hhigh⟩ := dueTime_mem (h.ordered.times event hmem) hle hlt
  have htime : (m.onTime event).timestamp = dueTime e.blockStart event := by
    rw [timestamp_onTime, h.start]
  let popped := { m with queue }.record (.fellDue (m.onTime event))
  have hnice : ∀ entry ∈ trace, ¬ e.graph.SetsBack entry.2 := by
    intro entry hentry
    apply honward.told
    rw [hjournal, List.drop_append_of_le_length (by simpa using hgrows.length_le)]
    refine List.mem_append_right _ (List.mem_cons_of_mem _ ?_)
    exact List.mem_map_of_mem hentry
  have hforward : Forward e.graph popped := ⟨h.delays, Queue.ordered_popBefore? h.ordered hpop⟩
  have hahead : Ahead e.graph (dueTime e.blockStart event) popped m' :=
    hback.ahead (Double.le_of_le_of_le hzero hlow) hforward htime hnice
  have hdue : m'.journal.dueTimes = m.journal.dueTimes ++ [dueTime e.blockStart event] := by
    rw [hahead.due, ← htime]
    exact Journal.dueTimes_push _ _
  have hbefore : ∀ t ∈ m'.journal.dueTimes, t ≤ dueTime e.blockStart event := by
    intro t ht
    rw [hdue] at ht
    rcases List.mem_append.1 ht with ht | ht
    · exact h.pending event hmem hlt t ht
    · rw [List.mem_singleton.1 ht]
      exact Double.le_refl (Double.le_iff.1 hlow).2.1
  refine ⟨hahead.toForward, ?_, ?_, ?_, ?_⟩
  · exact (works_drainOne? CatalogueUnit.kindred hone).blockStart.trans h.start
  · rw [hdue, List.pairwise_append]
    refine ⟨h.sorted, List.pairwise_singleton _ _, fun t ht t' ht' => ?_⟩
    rw [List.mem_singleton.1 ht']
    exact h.pending event hmem hlt t ht
  · intro other hother _ t ht
    refine Double.le_of_le_of_le (hbefore t ht) ?_
    obtain ⟨new, hsub, hnew⟩ := hahead.adds
    rcases List.mem_append.1 (hsub.subset hother) with hother | hother
    · -- the event was there before, and in order of time it comes behind
      have hplace := h.ordered.order
      have htimes := h.ordered.times
      rw [hevents] at hplace htimes
      have hlater : event.timestamp ≤ other.timestamp := Double.le_iff.2
        ⟨htimes event List.mem_cons_self, htimes other (List.mem_cons_of_mem _ hother),
          (List.pairwise_cons.1 hplace).1 other hother⟩
      exact dueTime_le_dueTime hstart hlater
    · have hlater := hnew other hother
      rw [dueTime_eq (Double.le_of_le_of_le hlow hlater)]
      exact hlater
  · exact fun _ t ht => Double.le_of_le_of_le (hbefore t ht) hhigh

/-- Up to each moment in the draining of a block, events fall due in order of time. -/
theorem punctual_of_handsOn (htimely : e.Timely settings) (hduration : ¬ settings.blockDuration < 0)
    (hsorted : e.journal.dueTimes.Pairwise (· ≤ ·))
    (hpast : e.blockStart.isNaN = false → ∀ t ∈ e.journal.dueTimes, t ≤ e.blockStart)
    {input : Samples} (h : HandsOn e.blockEnd (openBlock input e) m) :
    e.journal.toList <+: m.journal.toList ∧ (Onward e m → Punctual e m) := by
  induction h with
  | refl =>
    have hdue : (openBlock input e).journal.dueTimes = e.journal.dueTimes :=
      (Journal.dueTimes_push _ _).trans (List.append_nil _)
    refine ⟨by simp [openBlock], fun honward => ?_⟩
    refine ⟨⟨fun id wait h => ⟨honward.set id wait h, wait, h⟩, htimely.stable.toOrdered⟩, rfl, ?_, ?_, ?_⟩
    · exact hdue ▸ hsorted
    · intro event hevent hlt t ht
      obtain ⟨hzero, hle⟩ := htimely.blockEnd hduration (Double.lt_iff.1 hlt).2.1
      have htime := htimely.stable.times event hevent
      exact Double.le_of_le_of_le (hpast (Double.le_iff.1 hle).1 t (hdue ▸ ht))
        (dueTime_mem htime hle hlt).1
    · intro hend t ht
      obtain ⟨-, hle⟩ := htimely.blockEnd hduration hend
      exact Double.le_of_le_of_le (hpast (Double.le_iff.1 hle).1 t (hdue ▸ ht)) hle
  | tail _ hone ih =>
    obtain ⟨hgrows, hpunctual⟩ := ih
    obtain ⟨_, _, _, _, _, hjournal⟩ := drainOne?_eq_some hone
    have hgrows' := hjournal ▸ List.prefix_append _ _
    refine ⟨hgrows.trans hgrows', fun honward => ?_⟩
    exact (hpunctual (honward.of_prefix hgrows')).drainOne? htimely hduration hgrows hone honward

theorem handsOn_of_drain {stop : Float} {rounds : Nat} (h : drain stop rounds m = .ok ⟨⟩ m') :
    HandsOn stop m m' := by
  induction rounds generalizing m with
  | zero => cases h
  | succ rounds ih =>
    rw [drain, run_get_bind] at h
    cases hone : m.drainOne? stop with
    | none =>
      simp only [hone] at h
      cases h
      exact .refl
    | some m₁ =>
      simp only [hone] at h
      exact .head hone (ih h)

end Block

/-! ## Runs -/

/-- The engines that commands lead to as long as no `delay` is set to a time below zero. -/
inductive Advancing (settings : Settings) : Engine CatalogueUnit → Prop
  | start {e : Engine CatalogueUnit} : Engine.new settings = .ok e → Advancing settings e
  | step {e e' : Engine CatalogueUnit} {c : Command CatalogueUnit} : Advancing settings e →
      e.after c = some e' → Onward e e' → Advancing settings e'

/-- What holds between blocks of the events that have fallen due: they did so in order of time, and none
of them is later than the next block. -/
structure InOrder (settings : Settings) (e : Engine CatalogueUnit) : Prop
    extends e.Timely settings where
  sorted : e.journal.dueTimes.Pairwise (· ≤ ·)
  past : e.blockStart.isNaN = false → ∀ t ∈ e.journal.dueTimes, t ≤ e.blockStart

section Runs

variable {settings : Settings} {m : Engine CatalogueUnit}

theorem Advancing.reachable (h : Advancing settings e) : Reachable settings e := by
  induction h with
  | start hnew => exact .start hnew
  | step _ hafter _ ih => exact .step ih hafter

/-- What no event falls due in keeps events in order. -/
theorem InOrder.of_dueTimes (h : e.InOrder settings) (htimely : e'.Timely settings)
    (hdue : e'.journal.dueTimes = e.journal.dueTimes) (hstart : e'.blockStart = e.blockStart) :
    e'.InOrder settings :=
  ⟨htimely, hdue ▸ h.sorted, fun hnumber => by
    rw [hdue, hstart]
    exact h.past (hstart ▸ hnumber)⟩

/-- A block keeps events in order. -/
theorem inOrder_of_process (hduration : ¬ settings.blockDuration < 0) (h : e.InOrder settings)
    {input samples : Samples} {outLength : Nat} (hp : process input outLength e = .ok samples e')
    (honward : Onward e e') : e'.InOrder settings := by
  have hdeed : Deed (.process input outLength) e e' := .played rfl hp
  have htimely := timely_of_deed hduration hdeed h.toTimely
  obtain ⟨drained, plan, planned, ended, hdrain, hplan, hplay, rfl⟩ := process_eq_ok hp
  obtain ⟨g, -, rfl⟩ := compile_eq_ok.1 hplan
  have hstrides := strides_play hplay
  have hdue := dueTimes_of_strides hstrides
  have hgrows := grows_of_strides hstrides
  dsimp only at hdue hgrows
  have honward : Onward e ended := ⟨honward.set, honward.told⟩
  have hpunctual := (punctual_of_handsOn h.toTimely hduration h.sorted h.past
    (handsOn_of_drain hdrain)).2 (honward.of_prefix hgrows)
  refine ⟨htimely, ?_, fun hend t ht => ?_⟩
  · show ended.journal.dueTimes.Pairwise _
    rw [hdue]
    exact hpunctual.sorted
  · exact hpunctual.ended hend t (hdue ▸ ht)

theorem inOrder_of_deed {command : Command CatalogueUnit}
    (hduration : ¬ settings.blockDuration < 0) (hd : Deed command e e') (honward : Onward e e')
    (h : e.InOrder settings) : e'.InOrder settings := by
  have htimely := timely_of_deed hduration hd h.toTimely
  cases hd with
  | idle | scheduled | cancelled | sent | listened | taken => exact h.of_dueTimes htimely rfl rfl
  | declined | edited | removed => exact h.of_dueTimes htimely (dueTimes_withGraph e _) rfl
  | unheard =>
    exact h.of_dueTimes htimely ((Journal.dueTimes_push _ _).trans (List.append_nil _)) rfl
  | planned hplan =>
    obtain ⟨g, -, rfl⟩ := compile_eq_ok.1 hplan
    exact h.of_dueTimes htimely rfl rfl
  | played _ hp => exact inOrder_of_process hduration h hp honward

theorem Advancing.inOrder (hduration : ¬ settings.blockDuration < 0) (h : Advancing settings e) :
    e.InOrder settings := by
  induction h with
  | start hnew =>
    have htimely := timely_of_reachable hduration (.start hnew)
    obtain ⟨_, -, hnew⟩ := bind_eq_ok.1 hnew
    obtain ⟨_, -, hnew⟩ := bind_eq_ok.1 hnew
    obtain ⟨_, -, hnew⟩ := bind_eq_ok.1 hnew
    cases hnew
    exact ⟨htimely, .nil, fun _ _ ht => by cases ht⟩
  | step _ hafter honward ih => exact inOrder_of_deed hduration (deed_of_after hafter) honward ih

/-- At each moment of a run events wait in the order of their delivery. -/
theorem stable_of_underway (hduration : ¬ settings.blockDuration < 0) (h : Underway settings m) :
    m.queue.Stable := by
  induction h with
  | idle h | opened _ h => exact (timely_of_reachable hduration h).stable
  | drained _ hone ih => exact stable_of_moves (moves_drainOne? (fun _ => False) hone) ih
  | planned _ hplan ih =>
    obtain ⟨g, -, rfl⟩ := compile_eq_ok.1 hplan
    exact ih
  | stepped _ hstep ih => exact stable_of_moves (moves_runStep hstep) ih

/-- Events fall due in order of time over whole runs, and up to each moment in the draining of a block,
as long as no `delay` is set to a time below zero. Whenever one falls due, all that wait with it are
later, or are due at the same time and were inserted after it. -/
theorem falls_due_in_order (hduration : ¬ settings.blockDuration < 0) (h : Advancing settings e) :
    e.journal.dueTimes.Pairwise (· ≤ ·) ∧
    (∀ input m, HandsOn e.blockEnd (openBlock input e) m → Onward e m →
      m.journal.dueTimes.Pairwise (· ≤ ·)) ∧
    ∀ m : Engine CatalogueUnit, Underway settings m → ∀ stop event queue, m.queue.popBefore? stop = some (event, queue) →
      ∀ other ∈ queue.events, event.Before other := by
  have hinOrder := h.inOrder hduration
  refine ⟨hinOrder.sorted, fun input m hm honward => ?_, fun m hm stop event queue hpop => ?_⟩
  · exact ((punctual_of_handsOn hinOrder.toTimely hduration hinOrder.sorted hinOrder.past hm).2
      honward).sorted
  · have hsorted := (stable_of_underway hduration hm).sorted
    rw [(Queue.popBefore?_eq_some hpop).1] at hsorted
    exact (List.pairwise_cons.1 hsorted).1

/-- Whether a unit receives something at its right inlet. -/
def atRight : Happening → Bool
  | .received _ inlet _ => inlet == 1
  | _ => false

/-- Whether each `delay` is set to zero or more, and none is set anew on the way to a later engine. -/
def movesOn (e e' : Engine CatalogueUnit) : Bool :=
  e.graph.allDelays (fun wait => decide (0 ≤ wait)) &&
    (e'.journal.toList.drop e.journal.size).all fun x => !atRight x

theorem onward_of_movesOn (h : movesOn e e' = true) : Onward e e' := by
  obtain ⟨hset, htold⟩ := Bool.and_eq_true_iff.1 h
  refine ⟨fun id wait hdelays => of_decide_eq_true (Graph.of_allDelays hset hdelays), fun x hx hback => ?_⟩
  have hright := List.all_eq_true.1 htold x hx
  cases x with
  | received id inlet message =>
    obtain ⟨rfl, -⟩ := hback
    cases hright
  | _ => exact hback

/-- The engine that a list of commands leads to as long as no `delay` is set to a time below zero. -/
def advance (settings : Settings) (commands : List (Command CatalogueUnit)) :
    Option (Engine CatalogueUnit) :=
  (Engine.new settings).toOption.bind fun e =>
    commands.foldlM (fun e c => (e.after c).filter (movesOn e)) e

theorem advancing_of_advance {commands : List (Command CatalogueUnit)}
    (h : advance settings commands = some e) : Advancing settings e := by
  obtain ⟨start, hnew, hfold⟩ := Option.bind_eq_some_iff.1 h
  have hstart : Advancing settings start := by
    cases hr : Engine.new (U := CatalogueUnit) settings with
    | error f =>
      rw [hr] at hnew
      cases hnew
    | ok e₁ =>
      rw [hr] at hnew
      cases hnew
      exact .start hr
  clear h hnew
  induction commands generalizing start with
  | nil =>
    cases hfold
    exact hstart
  | cons c commands ih =>
    rw [List.foldlM_cons] at hfold
    obtain ⟨e₁, hafter, hfold⟩ := Option.bind_eq_some_iff.1 hfold
    obtain ⟨hafter, honward⟩ := Option.filter_eq_some_iff.1 hafter
    exact ih e₁ hfold (hstart.step hafter (onward_of_movesOn honward))

/-- A `metro` that starts a `delay` of three milliseconds with each of its ticks. -/
theorem falls_due_in_order_metro : ∃ e m : Engine CatalogueUnit,
    ¬ smallBlocks.blockDuration < 0 ∧ Advancing smallBlocks e ∧
    HandsOn e.blockEnd (openBlock #[] e) m ∧ Onward e m ∧ m.journal.dueTimes = [2, 5, 7] ∧
    m.journal.dueTimes.Pairwise (· ≤ ·) := by
  have hadvance : (advance smallBlocks
      [ .addUnit none (.metro ⟨5, none⟩), .addUnit none (.delay ⟨3, none⟩),
        .connect ⟨⟨0⟩, 0, ⟨1⟩, 0⟩, .schedule ⟨0⟩ 0 (.bang 2) ]).any (fun e =>
      (((openBlock #[] e).drainOne? e.blockEnd).bind fun e₁ =>
        (e₁.drainOne? e.blockEnd).bind (·.drainOne? e.blockEnd)).any fun m =>
          movesOn e m && decide (m.journal.dueTimes = [2, 5, 7])) = true := by
    decide +kernel
  obtain ⟨e, he, hdrain⟩ := (Option.any_eq_true ..).1 hadvance
  obtain ⟨m, hm, hok⟩ := (Option.any_eq_true ..).1 hdrain
  obtain ⟨honward, htimes⟩ := Bool.and_eq_true_iff.1 hok
  obtain ⟨e₁, h₁, hm⟩ := Option.bind_eq_some_iff.1 hm
  obtain ⟨e₂, h₂, h₃⟩ := Option.bind_eq_some_iff.1 hm
  have hhandsOn : HandsOn e.blockEnd (openBlock #[] e) m := .head h₁ (.head h₂ (.single h₃))
  have hduration : ¬ smallBlocks.blockDuration < 0 := by decide +kernel
  have honward := onward_of_movesOn honward
  have hadvancing := advancing_of_advance he
  exact ⟨e, m, hduration, hadvancing, hhandsOn, honward, of_decide_eq_true htimes,
    (falls_due_in_order hduration hadvancing).2.1 #[] m hhandsOn honward⟩

/-- A `delay` of minus five milliseconds, started at six: its bang is due at one. -/
theorem falls_due_out_of_order : ∃ e m : Engine CatalogueUnit,
    ¬ smallBlocks.blockDuration < 0 ∧ Reachable smallBlocks e ∧
    HandsOn e.blockEnd (openBlock #[] e) m ∧ m.drainOne? e.blockEnd = none ∧
    m.journal.dueTimes = [6, 1] ∧ ¬ m.journal.dueTimes.Pairwise (· ≤ ·) := by
  have hbuild : (build smallBlocks
      [ .addUnit none (CatalogueUnit.floatBox ⟨0⟩), .addUnit none (.delay ⟨-5, none⟩),
        .connect ⟨⟨0⟩, 0, ⟨1⟩, 0⟩, .schedule ⟨0⟩ 0 (.bang 6) ]).any (fun e =>
      (((openBlock #[] e).drainOne? e.blockEnd).bind (·.drainOne? e.blockEnd)).any fun m =>
        decide (m.journal.dueTimes = [6, 1]) && (m.drainOne? e.blockEnd).isNone) = true := by
    decide +kernel
  obtain ⟨e, he, hdrain⟩ := (Option.any_eq_true ..).1 hbuild
  obtain ⟨m, hm, hok⟩ := (Option.any_eq_true ..).1 hdrain
  obtain ⟨htimes, hnone⟩ := Bool.and_eq_true_iff.1 hok
  obtain ⟨e₁, h₁, h₂⟩ := Option.bind_eq_some_iff.1 hm
  have htimes := of_decide_eq_true htimes
  have hback : ¬ (6 : Float) ≤ 1 := by decide +kernel
  refine ⟨e, m, by decide +kernel, (roomy_of_build he).reachable, .head h₁ (.single h₂),
    Option.isNone_iff_eq_none.1 hnone, htimes, fun hsorted => hback ?_⟩
  rw [htimes] at hsorted
  exact (List.pairwise_cons.1 hsorted).1 1 List.mem_cons_self

end Runs

end Engine
end Patchbay
