import Patchbay.Catalogue
import Patchbay.Proofs.Device
import Patchbay.Proofs.Outcome

/-!
# The catalogue keeps its word

A unit of the catalogue stays what it is for planning and for the flow of messages (`kindred`), and
writes its outlets and its bus in place, so that none of them gets longer or shorter (`process_tidy`).
The catalogue is thus `Steady`.
-/

namespace Patchbay

namespace Outputs

/-- That neither the bus nor any outlet has got longer or shorter. -/
structure SameSizes (outs outs' : Outputs) : Prop where
  outlets : outs'.outlets.map Array.size = outs.outlets.map Array.size
  bus : outs'.bus.map Array.size = outs.bus.map Array.size

/-- That work which ends without a fault leaves the bus and every outlet as long as they were. -/
def InPlace (outs : Outputs) (x : Except Fault Outputs) : Prop :=
  Outcome (fun _ => True) outs.SameSizes x

variable {α : Type} {outs : Outputs}

theorem SameSizes.refl (outs : Outputs) : outs.SameSizes outs := ⟨rfl, rfl⟩

theorem SameSizes.trans {outs' outs'' : Outputs} (h : outs.SameSizes outs')
    (h' : outs'.SameSizes outs'') : outs.SameSizes outs'' :=
  ⟨h'.outlets.trans h.outlets, h'.bus.trans h.bus⟩

/-- What comes before the writing matters only by its result. -/
theorem InPlace.after {x : Except Fault α} {f : α → Except Fault Outputs}
    (h : ∀ a, outs.InPlace (f a)) : outs.InPlace (x >>= f) :=
  (Outcome.total x).bind fun a _ => h a

theorem modifyOutlet_inPlace (outs : Outputs) (k first last : Nat)
    (f : Samples → Except Fault Samples) : outs.InPlace (outs.modifyOutlet k first last f) := by
  refine (Outcome.total (outs.outlet k)).attach.bind fun samples ⟨_, hk⟩ =>
    InPlace.after fun range => InPlace.after fun ys => ?_
  have hget : outs.outlets[k]? = some samples := by
    unfold outlet at hk
    split at hk
    · next h =>
      cases hk
      exact h
    · cases hk
  refine ⟨?_, rfl⟩
  show (outs.outlets.setIfInBounds k _).map Array.size = _
  rw [Array.map_setIfInBounds, size_overwrite]
  refine Array.ext_getElem? fun i => ?_
  rw [Array.getElem?_setIfInBounds]
  split
  · next h =>
    subst h
    split
    · rw [Array.getElem?_map, hget, Option.map_some]
    · next h => rw [Array.getElem?_eq_none (by omega)]
  · rfl

theorem setOutlet_inPlace (outs : Outputs) (k first last : Nat) (ys : Samples) :
    outs.InPlace (outs.setOutlet k first last ys) :=
  modifyOutlet_inPlace outs k first last _

theorem addToHost_inPlace (outs : Outputs) (channel first last : Nat) (ys : Samples) :
    outs.InPlace (outs.addToHost channel first last ys) := by
  refine InPlace.after fun start => ?_
  cases start with
  | none => exact SameSizes.refl outs
  | some start => exact InPlace.after fun old => ⟨rfl, rfl⟩

/-- Writing channel after channel. -/
theorem InPlace.foldlM {f : Outputs → Nat → Except Fault Outputs}
    (h : ∀ (outs : Outputs) channel, outs.InPlace (f outs channel)) (channels : List Nat) :
    outs.InPlace (channels.foldlM f outs) :=
  Outcome.foldlM (fun _ outs' => outs.SameSizes outs') (.refl outs)
    fun _ channel _ outs' _ hsame => (h outs' channel).mono fun _ => hsame.trans

end Outputs

open Outputs

namespace Catalogue

/-! ## What units write -/

variable {ins : Inputs} {first last : Nat}

theorem Ramp.process_inPlace (u : Ramp) (outs : Outputs) :
    Outcome (fun _ => True) (fun r => outs.SameSizes r.2) (u.process outs first last) := by
  refine (Outcome.total _).bind fun samples _ => (Outcome.total _).bind fun old _ => ?_
  split
  · exact (setOutlet_inPlace outs 0 first last _).bind fun _ h => h
  · exact (setOutlet_inPlace outs 0 first last _).bind fun _ h => h

theorem Phase.process_inPlace (u : Phase) (shape : Float32 → Float32) (outs : Outputs) :
    Outcome (fun _ => True) (fun r => outs.SameSizes r.2)
      (u.process shape ins outs first last) :=
  (Outcome.total _).bind fun _ _ => (Outcome.total _).bind fun _ _ =>
    (setOutlet_inPlace outs 0 first last _).bind fun _ h => h

theorem StreamOperator.process_inPlace (u : StreamOperator) (outs : Outputs) :
    outs.InPlace (u.process ins outs first last) := by
  refine .after fun _ => .after fun left => ?_
  cases u.mode with
  | scalar => exact setOutlet_inPlace ..
  | signal => exact .after fun _ => .after fun right => setOutlet_inPlace ..

theorem LinkWriter.process_inPlace (u : LinkWriter) (outs : Outputs) :
    outs.InPlace (u.process ins outs first last) := by
  refine .after fun _ => .after fun input => ?_
  cases hbus : outs.bus with
  | none => exact SameSizes.refl outs
  | some bus =>
    refine .after fun old => ⟨rfl, ?_⟩
    rw [hbus, Option.map_some, Option.map_some, size_overwrite]

theorem LinkReader.process_inPlace (outs : Outputs) :
    outs.InPlace (LinkReader.process outs first last) := by
  unfold LinkReader.process
  cases outs.bus with
  | none => exact setOutlet_inPlace ..
  | some bus => exact .after fun _ => setOutlet_inPlace ..

theorem TableWriter.process_inPlace (u : TableWriter) (outs : Outputs) :
    Outcome (fun _ => True) (fun r => outs.SameSizes r.2) (u.process ins outs first last) := by
  unfold process
  cases u.position with
  | none => exact SameSizes.refl outs
  | some start =>
    refine (Outcome.total _).bind fun _ _ => (Outcome.total _).bind fun input _ => ?_
    cases outs.store with
    | none => exact SameSizes.refl outs
    | some store =>
      dsimp only
      split
      · exact ⟨⟩
      · exact ⟨rfl, rfl⟩

theorem DelayWriter.process_inPlace (outs : Outputs) :
    outs.InPlace (DelayWriter.process ins outs first last) := by
  refine .after fun _ => .after fun input => ?_
  cases outs.store with
  | none => exact SameSizes.refl outs
  | some line =>
    dsimp only
    split
    · exact SameSizes.refl outs
    · split
      · exact ⟨⟩
      · exact ⟨rfl, rfl⟩

theorem DelayReader.process_inPlace (u : DelayReader) (outs : Outputs) :
    outs.InPlace (u.process ins outs first last) := by
  unfold process
  dsimp only
  split
  · exact setOutlet_inPlace ..
  · refine .after fun _ => .after fun far => .after fun base => ?_
    split
    · exact .after fun _ => setOutlet_inPlace ..
    · exact setOutlet_inPlace ..

end Catalogue

namespace CatalogueUnit

open Catalogue

/-! ## What units stay -/

/-- The name to which a unit sends the messages that it receives. -/
def calls? : CatalogueUnit → Option Symbol
  | messageSender u => some u.name
  | _ => none

/-- How long a `delay` is set to wait. -/
def delay? : CatalogueUnit → Option Float
  | delay u => some u.delay
  | _ => none

/-- That a unit is treated like another, has the same ports, and may lead messages to the same
places. -/
structure Kindred (u v : CatalogueUnit) : Prop where
  alike : Alike u v
  calls : v.calls? = u.calls?
  delays : v.delay?.isSome = u.delay?.isSome
  sink : v.isSink = u.isSink
  ports : v.ports = u.ports

theorem Kindred.refl (u : CatalogueUnit) : Kindred u u := ⟨⟨rfl, fun _ => rfl⟩, rfl, rfl, rfl, rfl⟩

theorem kindred_receive (u : CatalogueUnit) (inlet : Nat) (message : Message) (here : Surroundings) :
    (u.receive inlet message here).Ends (Kindred u) := by
  cases u with
  | hostInput | hostOutput | linkWriter | linkReader | table | tableReader | delayWriter =>
    exact .refl _
  | constant | ramp | oscillator | tableWriter | delayReader =>
    exact ⟨⟨rfl, fun _ => rfl⟩, rfl, rfl, rfl, rfl⟩
  | streamOperator | messageOperator | floatBox | metro | delay | print | messageReceiver =>
    exact .map (.of_forall (fun _ => ⟨⟨rfl, fun _ => rfl⟩, rfl, rfl, rfl, rfl⟩) _)
  | messageSender v => exact Kindred.refl (messageSender v)
  | port p =>
    refine .map ?_
    unfold Port.receive
    split <;> exact Kindred.refl (port p)

theorem kindred_emit (u : CatalogueUnit) (outlet : Nat) (message : Message) :
    (u.emit outlet message).Ends (Kindred u) := by
  cases u with
  | metro | delay => exact .map (.of_forall (fun _ => ⟨⟨rfl, fun _ => rfl⟩, rfl, rfl, rfl, rfl⟩) _)
  | _ => exact .refl _

theorem kindred_rewired (u : CatalogueUnit) (counts : List Nat) : Kindred u (u.rewired counts) := by
  cases u <;> exact ⟨⟨rfl, fun _ => rfl⟩, rfl, rfl, rfl, rfl⟩

/-! ## Computing -/

/-- That a computation which ends without a fault leaves a kindred unit, and the bus and every outlet as
long as they were. -/
def Tidy (u : CatalogueUnit) (outs : Outputs) (x : Except Fault (CatalogueUnit × Outputs)) : Prop :=
  Outcome (fun _ => True) (fun r => Kindred u r.1 ∧ outs.SameSizes r.2) x

variable {u : CatalogueUnit} {outs : Outputs}

theorem Tidy.of_inPlace {x : Except Fault Outputs} (h : outs.InPlace x) :
    u.Tidy outs (x >>= fun outs' => .ok (u, outs')) :=
  h.bind fun _ hsame => ⟨.refl u, hsame⟩

theorem Tidy.of_pair {σ : Type} (make : σ → CatalogueUnit) (hmake : ∀ s, Kindred u (make s))
    {x : Except Fault (σ × Outputs)}
    (h : Outcome (fun _ => True) (fun r => outs.SameSizes r.2) x) :
    u.Tidy outs (x >>= fun r => .ok (make r.1, r.2)) :=
  h.bind fun r hsame => ⟨hmake r.1, hsame⟩

theorem process_tidy (u : CatalogueUnit) (ins : Inputs) (outs : Outputs) (first last : Nat) :
    u.Tidy outs (u.process ins outs first last) := by
  cases u with
  | hostInput v =>
    exact .of_inPlace (InPlace.foldlM (fun outs channel => .after fun _ => .after fun _ =>
      setOutlet_inPlace outs channel first last _) _)
  | hostOutput v =>
    exact .of_inPlace (InPlace.foldlM (fun outs channel => .after fun _ => .after fun _ =>
      addToHost_inPlace outs channel first last _) _)
  | constant v => exact .of_inPlace (modifyOutlet_inPlace outs 0 first last _)
  | ramp v =>
    exact .of_pair ramp (fun _ => ⟨⟨rfl, fun _ => rfl⟩, rfl, rfl, rfl, rfl⟩) (v.process_inPlace outs)
  | oscillator shape v =>
    exact .of_pair (oscillator shape) (fun _ => ⟨⟨rfl, fun _ => rfl⟩, rfl, rfl, rfl, rfl⟩)
      (v.process_inPlace shape.value outs)
  | streamOperator v => exact .of_inPlace (v.process_inPlace outs)
  | linkWriter v => exact .of_inPlace (v.process_inPlace outs)
  | linkReader v => exact .of_inPlace (LinkReader.process_inPlace outs)
  | tableWriter v =>
    exact .of_pair tableWriter (fun _ => ⟨⟨rfl, fun _ => rfl⟩, rfl, rfl, rfl, rfl⟩)
      (v.process_inPlace outs)
  | tableReader v => exact .of_inPlace (.after fun _ => .after fun _ => setOutlet_inPlace ..)
  | delayWriter v => exact .of_inPlace (DelayWriter.process_inPlace outs)
  | delayReader v => exact .of_inPlace (v.process_inPlace outs)
  | messageOperator | port | table | floatBox | metro | delay | print | messageSender
  | messageReceiver => exact ⟨.refl _, .refl outs⟩

/-- A unit of the catalogue stays what it was for planning and for the flow of messages. -/
theorem kindred : Law Kindred where
  refl := .refl
  trans _ _ _ h h' :=
    ⟨⟨h'.alike.computes.trans h.alike.computes,
      fun o => (h'.alike.source o).trans (h.alike.source o)⟩,
      h'.calls.trans h.calls, h'.delays.trans h.delays, h'.sink.trans h.sink,
      h'.ports.trans h.ports⟩
  receive := kindred_receive
  emit u outlet message _ := kindred_emit u outlet message
  process h := ((process_tidy ..).of_ok h).1
  rewired u _ counts := kindred_rewired u counts

/-- The catalogue keeps what planning relies on. -/
theorem steady : Steady CatalogueUnit where
  alike := kindred.mono (fun _ _ => Kindred.alike) fun _ _ _ h h' =>
    ⟨h'.computes.trans h.computes, fun o => (h'.source o).trans (h.source o)⟩
  sizes h := ((process_tidy ..).of_ok h).2.outlets

/-- The catalogue keeps the length of a bus. -/
theorem keepsBuses : KeepsBuses CatalogueUnit := fun h => ((process_tidy ..).of_ok h).2.bus

end CatalogueUnit
end Patchbay
