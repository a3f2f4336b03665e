import Patchbay.Proofs.Engine.Clock
import Patchbay.Proofs.Engine.Receiving
import Patchbay.Proofs.Engine.References

/-!
# Whom a journal mentions

A journal tells which units have received messages, and whose events have fallen due. All these units
have been added before (`told_of_reachable`), so nothing is told of a unit that is still to come.
-/

namespace Patchbay

variable {U : Type} [Device U]

/-- The unit that received a message, or whose event fell due. -/
def Happening.about? : Happening → Option UnitId
  | .received unit _ _ => some unit
  | .fellDue event => some event.target
  | _ => none

/-- What a script does besides sending is about nobody. -/
theorem about?_of_mem_happenings {α : Type} {id : UnitId} {label : String} {script : Script α}
    {q : Queue} {a : Happening} (h : a ∈ script.happenings id label q) : a.about? = none :=
  script.forall_happenings (P := fun a => a.about? = none) (fun _ => rfl) (fun _ _ => rfl)
    (fun _ => rfl) q a h

namespace Engine

variable {own : UnitId → Prop} {command : Command U} {e e' e'' : Engine U}
  {P : UnitId → Prop}

/-- That what an engine has told since is about certain units only. -/
def Tells (P : UnitId → Prop) (e e' : Engine U) : Prop :=
  ∃ hs : List Happening, e'.journal.toList = e.journal.toList ++ hs ∧
    ∀ a ∈ hs, ∀ x, a.about? = some x → P x

namespace Tells

omit [Device U] in
theorem of_eq (h : e'.journal = e.journal) : Tells P e e' :=
  ⟨[], by rw [h, List.append_nil], fun _ h => by cases h⟩

omit [Device U] in
theorem trans (h : Tells P e e') (h' : Tells P e' e'') : Tells P e e'' := by
  obtain ⟨hs, hj, hP⟩ := h
  obtain ⟨hs', hj', hP'⟩ := h'
  refine ⟨hs ++ hs', ?_, List.forall_mem_append.2 ⟨hP, hP'⟩⟩
  rw [hj', hj, List.append_assoc]

omit [Device U] in
theorem record (e : Engine U) {a : Happening} (h : ∀ x, a.about? = some x → P x) :
    Tells P e (e.record a) :=
  ⟨[a], Array.toList_push, fun _ hb => List.mem_singleton.1 hb ▸ h⟩

theorem reactQuietly (e : Engine U) (id : UnitId) (unit : U) (script : Script U) :
    Tells P e (e.reactQuietly id unit script) := by
  refine ⟨_, (congrArg Array.toList (journal_reactQuietly e id unit script)).trans
    Array.toList_append, fun a ha x hx => ?_⟩
  rw [about?_of_mem_happenings ha] at hx
  cases hx

theorem received (e : Engine U) {target : UnitId} (h : P target) (unit : U) (inlet : Nat)
    (message : Message) : Tells P e (e.received target unit inlet message) := by
  have hrecord : Tells P e (e.record (.received target inlet message)) :=
    record e fun x hx => Option.some.inj hx ▸ h
  exact hrecord.trans (reactQuietly _ target unit _)

omit [Device U] in
theorem withGraph (e : Engine U) (g : Graph U) : Tells P e (e.withGraph g) := by
  have hjournal : (e.withGraph g).journal = e.journal ++ g.notices.map .told := rfl
  refine ⟨(g.notices.map .told).toList, by rw [hjournal, Array.toList_append], fun a ha x hx => ?_⟩
  rw [Array.toList_map] at ha
  obtain ⟨notice, -, rfl⟩ := List.mem_map.1 ha
  cases hx

end Tells

/-- What happens in a block is told of units that are there. -/
theorem tells_of_move (hs : e.Settled) (h : Move own e e') :
    Tells (e.graph.contains · = true) e e' := by
  have hlive : ∀ {x n}, e.graph.node? x = some n → e.graph.contains x = true := fun hn =>
    Graph.contains_iff.2 ⟨_, hn⟩
  cases h with
  | ripple h =>
    cases h with
    | report r => exact .record e fun _ hx => by cases hx
    | collect name message =>
      exact .record { e with external := e.external.push (name, message) } fun _ hx => by cases hx
    | defer inlet message hn hu hc => exact .record (e.modifyNode _ _) fun _ hx => by cases hx
    | receive inlet message hn hu hc => exact .received e (hlive hn) _ inlet message
  | fall hpop =>
    refine .record { e with queue := _ } fun x hx => ?_
    rw [← Option.some.inj hx, target_onTime]
    apply hs.events
    rw [(Queue.popBefore?_eq_some hpop).1]
    exact List.mem_cons_self
  | emit outlet message hn hu => exact .reactQuietly e _ _ _
  | pool pool => exact .of_eq rfl
  | take _ hnext =>
    obtain ⟨n, rest, -, -, rfl⟩ := nextPending?_eq_some hnext
    exact .of_eq rfl
  | compute _ hn hu hp => exact .record e fun _ hx => by cases hx
  | receive inlet message _ hn hu => exact .received e (hlive hn) _ inlet message
  | calm => exact .of_eq rfl

/-- That all units of which an engine tells have been added. -/
def Told (e : Engine U) : Prop :=
  ∀ a ∈ e.journal.toList, ∀ x, a.about? = some x → x.index < e.graph.nodes.size

omit [Device U] in
theorem Told.of_tells (h : e.Told) (ht : Tells (e.graph.contains · = true) e e')
    (hsize : e.graph.nodes.size ≤ e'.graph.nodes.size) : e'.Told := by
  obtain ⟨hs, hj, hnew⟩ := ht
  intro a ha x hx
  rw [hj] at ha
  rcases List.mem_append.1 ha with ha | ha
  · exact (h a ha x hx).trans_le hsize
  · exact (Graph.lt_size_of_contains (hnew a ha x hx)).trans_le hsize

theorem told_of_moves (h : Moves own e e') (hs : e.Settled) (ht : e.Told) : e'.Told := by
  induction h with
  | refl => exact ht
  | @tail e₁ e₂ hmoves hmove ih =>
    have hsize := (works_of_move .any hmove).graph.shape.size
    exact ih.of_tells (tells_of_move (settled_of_moves hmoves hs) hmove) hsize.ge

theorem told_of_process {input samples : Samples} {outLength : Nat}
    (h : process input outLength e = .ok samples e') (hs : e.Settled) (ht : e.Told) : e'.Told := by
  obtain ⟨drained, plan, planned, ended, hdrain, hplan, hplay, rfl⟩ := process_eq_ok h
  have hopens : (openBlock input e).Settled :=
    ⟨hs.events, (Names.sameSeats_clearBuses _).once hs.once⟩
  have hopened : (openBlock input e).Told :=
    ht.of_tells (.record _ fun _ hx => by cases hx) le_rfl
  have hdrains := moves_drain (fun _ => True) hdrain
  have hdrained := told_of_moves hdrains hopens hopened
  have hplans := settled_of_compile hplan (settled_of_moves hdrains hopens)
  obtain ⟨g, hg, rfl⟩ := compile_eq_ok.1 hplan
  have hplanned : ({ drained with graph := g } : Engine U).Told := by
    refine hdrained.of_tells (.of_eq rfl) ?_
    rcases Graph.compile_cases hg with ⟨-, rfl⟩ | ⟨-, d, -, -, rfl⟩ <;> exact le_rfl
  have hended : ended.Told := told_of_moves (moves_play hplay) hplans hplanned
  exact hended

theorem told_of_deed (hs : e.Settled) (h : Deed command e e') (ht : e.Told) : e'.Told := by
  cases h with
  | idle | scheduled | cancelled | sent | listened | taken => exact ht
  | declined => exact ht.of_tells (.withGraph e _) le_rfl
  | edited hedit => exact ht.of_tells (.withGraph e _) (inherits_of_edited Law.any.heeds hedit).size
  | removed hremove =>
    exact ht.of_tells (.withGraph e _) (Edit.inherits_remove Law.any.heeds hremove).size
  | unheard name => exact ht.of_tells (.record e fun _ hx => by cases hx) le_rfl
  | planned hplan =>
    obtain ⟨g, hg, rfl⟩ := compile_eq_ok.1 hplan
    refine ht.of_tells (.of_eq rfl) ?_
    rcases Graph.compile_cases hg with ⟨-, rfl⟩ | ⟨-, d, -, -, rfl⟩ <;> exact le_rfl
  | played _ hp => exact told_of_process hp hs ht

/-- Whatever commands have led to an engine, it tells of units that have been added. -/
theorem told_of_reachable {settings : Settings} (h : Reachable settings e) : e.Told := by
  induction h with
  | @start e hnew =>
    have hjournal : e.journal = #[] := by
      obtain ⟨_, -, hnew⟩ := bind_eq_ok.1 hnew
      obtain ⟨_, -, hnew⟩ := bind_eq_ok.1 hnew
      obtain ⟨_, -, hnew⟩ := bind_eq_ok.1 hnew
      cases hnew
      rfl
    intro a ha
    rw [hjournal] at ha
    cases ha
  | step hreach hafter ih =>
    exact told_of_deed (settled_of_reachable hreach) (deed_of_after hafter) ih

end Engine
end Patchbay
