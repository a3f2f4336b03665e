import Patchbay.Proofs.Engine.Arrivals

/-!
# What is collected for the host

An engine collects the messages for external names, in the order in which they are sent, until the
host takes them. The journal tells of each. Hence what waits for the host is what waited at the
beginning of the journal, and then all that has been collected since (`Collects`), whatever commands
the engine is given; only the host itself takes messages away (`collects_of_deed`).
-/

namespace Patchbay

variable {U : Type} [Device U]

/-- The message that was collected. -/
def Happening.collected? : Happening → Option (Symbol × Message)
  | .collected name message => some (name, message)
  | _ => none

/-- The messages that were collected for the host, oldest first. -/
def Journal.collected (j : Journal) : List (Symbol × Message) :=
  j.toList.filterMap Happening.collected?

namespace Journal

theorem collected_append (j : Journal) (hs : Array Happening) :
    collected (j ++ hs) = j.collected ++ hs.toList.filterMap Happening.collected? := by
  rw [collected, Array.toList_append, List.filterMap_append]
  rfl

theorem collected_push (j : Journal) (h : Happening) :
    collected (j.push h) = j.collected ++ h.collected?.toList := by
  rw [Array.push_eq_append, collected_append]
  cases hc : h.collected? <;> simp [hc]

end Journal

namespace Engine

variable {own : UnitId → Prop} {command : Command U} {e e' : Engine U}
  {before : List (Symbol × Message)}

/-- That an engine keeps for the host what it kept before its journal began, and then all that the
journal says to have been collected, in the same order. -/
def Collects (before : List (Symbol × Message)) (e : Engine U) : Prop :=
  e.external.toList = before ++ e.journal.collected

omit [Device U] in
theorem Collects.of_eq (h : e.Collects before) (hexternal : e'.external = e.external)
    (hjournal : e'.journal.collected = e.journal.collected) : e'.Collects before := by
  rw [Collects, hexternal, hjournal]
  exact h

omit [Device U] in
theorem collected_record (e : Engine U) {a : Happening} (ha : a.collected? = none) :
    (e.record a).journal.collected = e.journal.collected := by
  show Journal.collected (e.journal.push a) = e.journal.collected
  rw [Journal.collected_push, ha]
  exact List.append_nil _

omit [Device U] in
/-- Anything else that happens is not collected. -/
theorem Collects.record (h : e.Collects before) {a : Happening} (ha : a.collected? = none) :
    (e.record a).Collects before := h.of_eq rfl (collected_record e ha)

omit [Device U] in
/-- What units are told of their connections is not collected. -/
theorem collected_withGraph (e : Engine U) (g : Graph U) :
    (e.withGraph g).journal.collected = e.journal.collected := by
  have hnone : (g.notices.map Happening.told).toList.filterMap Happening.collected? = [] := by
    rw [Array.toList_map, List.filterMap_map]
    exact List.filterMap_eq_nil_iff.2 fun _ _ => rfl
  show Journal.collected (e.journal ++ g.notices.map .told) = e.journal.collected
  rw [Journal.collected_append, hnone, List.append_nil]

omit [Device U] in
theorem Collects.withGraph (h : e.Collects before) (g : Graph U) :
    (e.withGraph g).Collects before := h.of_eq rfl (collected_withGraph e g)

omit [Device U] in
theorem external_carryOut (id : UnitId) (label : String) (script : Script U) (e : Engine U) :
    (carryOut id label script e).2.external = e.external := by
  induction script generalizing e with
  | done unit => rfl
  | send _ _ _ ih | sendTo _ _ _ ih | report _ _ _ ih => exact ih _
  | schedule _ _ _ ih | cancel _ _ _ ih => exact ih _ _

/-- What a unit sends is collected when it is dispatched, and not before. -/
theorem Collects.reactQuietly (h : e.Collects before) (id : UnitId) (unit : U) (script : Script U) :
    (e.reactQuietly id unit script).Collects before := by
  refine h.of_eq (external_carryOut id (Device.label unit) script e) ?_
  have hnone : (script.happenings id (Device.label unit) e.queue).filterMap Happening.collected? = [] :=
    List.filterMap_eq_nil_iff.2
      (script.forall_happenings (fun _ => rfl) (fun _ _ => rfl) (fun _ => rfl) e.queue)
  rw [journal_reactQuietly, Journal.collected_append, hnone, List.append_nil]

theorem Collects.received (h : e.Collects before) (target : UnitId) (unit : U) (inlet : Nat)
    (message : Message) : (e.received target unit inlet message).Collects before :=
  Collects.reactQuietly (h.record rfl) target unit _

theorem collects_of_move (h : Move own e e') (hc : e.Collects before) : e'.Collects before := by
  cases h with
  | ripple h =>
    cases h with
    | report r => exact hc.record rfl
    | collect name message =>
      show (e.external.push (name, message)).toList =
        before ++ Journal.collected (e.journal.push (.collected name message))
      rw [Array.toList_push, hc, Journal.collected_push, List.append_assoc]
      rfl
    | defer inlet message => exact Collects.record (e := e.modifyNode _ _) hc rfl
    | receive inlet message => exact hc.received _ _ _ _
  | fall => exact Collects.record (e := { e with queue := _ }) hc rfl
  | emit outlet message => exact hc.reactQuietly _ _ _
  | take _ hnext =>
    obtain ⟨n, rest, -, -, rfl⟩ := nextPending?_eq_some hnext
    exact hc
  | compute => exact hc.record rfl
  | receive inlet message => exact hc.received _ _ _ _
  | pool | calm => exact hc

theorem collects_of_process {input samples : Samples} {outLength : Nat}
    (h : process input outLength e = .ok samples e') (hc : e.Collects before) :
    e'.Collects before := by
  obtain ⟨drained, plan, planned, ended, hdrain, hplan, hplay, rfl⟩ := process_eq_ok h
  obtain ⟨g, -, rfl⟩ := compile_eq_ok.1 hplan
  have hopened : (openBlock input e).Collects before := hc.of_eq rfl (collected_record e rfl)
  have hdrained := (moves_drain (fun _ => True) hdrain).keeps (P := (·.Collects before))
    (fun _ _ => collects_of_move) hopened
  exact (moves_play hplay).keeps (P := (·.Collects before)) (fun _ _ => collects_of_move) hdrained

/-- Whatever an engine is asked to do, it goes on collecting, unless the host takes the messages. -/
theorem collects_of_deed (h : Deed command e e') (htake : command ≠ .takeExternal)
    (hc : e.Collects before) : e'.Collects before := by
  cases h with
  | idle | scheduled | cancelled | sent | listened => exact hc
  | declined | edited | removed => exact hc.withGraph _
  | unheard => exact hc.record rfl
  | taken heq => exact absurd heq htake
  | planned hplan =>
    obtain ⟨g, -, rfl⟩ := compile_eq_ok.1 hplan
    exact hc
  | played _ hp => exact collects_of_process hp hc

/-- Messages are collected while blocks are computed, and at no other time. -/
theorem collected_of_deed (h : Deed command e e')
    (hprocess : ∀ input outLength, command ≠ .process input outLength) :
    e'.journal.collected = e.journal.collected := by
  cases h with
  | idle | scheduled | cancelled | sent | listened | taken => rfl
  | declined | edited | removed => exact collected_withGraph e _
  | unheard => exact collected_record e rfl
  | planned hplan =>
    obtain ⟨g, -, rfl⟩ := compile_eq_ok.1 hplan
    rfl
  | played heq _ => exact absurd heq (hprocess _ _)

end Engine
end Patchbay
