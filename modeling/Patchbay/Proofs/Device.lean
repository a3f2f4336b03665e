import Mathlib
import Patchbay.Device

/-!
# What units keep

Whatever a unit does, it may only become what its type allows. A `Law` is a relation between what a
unit was and what it has become that every reaction keeps; the engine keeps it too, for it changes a
unit in no other way.

`Steady` is the law that planning relies on: a unit goes on computing or not, each outlet keeps its
source, and the samples of an outlet stay as many as they were.
-/

namespace Patchbay

/-- Whether a script ends, whatever the engine answers, in a result with a property. -/
def Script.Ends {α : Type} (P : α → Prop) : Script α → Prop
  | .done a => P a
  | .send _ _ next => next.Ends P
  | .sendTo _ _ next => next.Ends P
  | .schedule _ _ next => ∀ id, (next id).Ends P
  | .cancel _ _ next => ∀ found, (next found).Ends P
  | .report _ _ next => next.Ends P

/-- What holds of every result holds of the one that a script ends in. -/
theorem Script.Ends.of_forall {α : Type} {P : α → Prop} (h : ∀ a, P a) (script : Script α) :
    script.Ends P := by
  induction script with
  | done a => exact h a
  | send _ _ _ ih | sendTo _ _ _ ih | report _ _ _ ih => exact ih
  | schedule _ _ _ ih | cancel _ _ _ ih => exact ih

theorem Script.Ends.mono {α : Type} {P Q : α → Prop} (h : ∀ a, P a → Q a) {script : Script α}
    (hs : script.Ends P) : script.Ends Q := by
  induction script with
  | done a => exact h a hs
  | send _ _ _ ih | sendTo _ _ _ ih | report _ _ _ ih => exact ih hs
  | schedule _ _ _ ih | cancel _ _ _ ih => exact fun answer => ih answer (hs answer)

theorem Script.Ends.and {α : Type} {P Q : α → Prop} {script : Script α} (hP : script.Ends P)
    (hQ : script.Ends Q) : script.Ends fun a => P a ∧ Q a := by
  induction script with
  | done a => exact ⟨hP, hQ⟩
  | send _ _ _ ih | sendTo _ _ _ ih | report _ _ _ ih => exact ih hP hQ
  | schedule _ _ _ ih | cancel _ _ _ ih => exact fun answer => ih answer (hP answer) (hQ answer)

theorem Script.Ends.map {α β : Type} {P : β → Prop} {f : α → β} {script : Script α}
    (h : script.Ends (P ∘ f)) : (f <$> script).Ends P := by
  induction script with
  | done a => exact h
  | send _ _ _ ih | sendTo _ _ _ ih | report _ _ _ ih => exact ih h
  | schedule _ _ _ ih | cancel _ _ _ ih => exact fun answer => ih answer (h answer)

theorem id_map_script {α : Type} (script : Script α) : id <$> script = script := by
  induction script with
  | done a => rfl
  | send outlet message _ ih => exact congrArg (Script.send outlet message) ih
  | sendTo name message _ ih => exact congrArg (Script.sendTo name message) ih
  | report severity text _ ih => exact congrArg (Script.report severity text) ih
  | schedule outlet message _ ih => exact congrArg (Script.schedule outlet message) (funext ih)
  | cancel outlet event _ ih => exact congrArg (Script.cancel outlet event) (funext ih)

/-- Whether all that a script sends and all that it schedules has a property, whatever the engine
answers. What is sent goes to a name, or leaves an outlet. -/
def Script.Posts {α : Type} (sent : Option Symbol → Message → Prop) (scheduled : Message → Prop) :
    Script α → Prop
  | .done _ => True
  | .send _ message next => sent none message ∧ next.Posts sent scheduled
  | .sendTo name message next => sent (some name) message ∧ next.Posts sent scheduled
  | .schedule _ message next => scheduled message ∧ ∀ id, (next id).Posts sent scheduled
  | .cancel _ _ next => ∀ found, (next found).Posts sent scheduled
  | .report _ _ next => next.Posts sent scheduled

section Posts

variable {α β : Type} {sent : Option Symbol → Message → Prop} {scheduled : Message → Prop}

theorem Script.Posts.bind {P : α → Prop} {script : Script α} {f : α → Script β}
    (h : script.Posts sent scheduled) (he : script.Ends P)
    (hf : ∀ a, P a → (f a).Posts sent scheduled) : (script >>= f).Posts sent scheduled := by
  induction script with
  | done a => exact hf a he
  | send _ _ _ ih | sendTo _ _ _ ih => exact ⟨h.1, ih h.2 he⟩
  | schedule _ _ _ ih => exact ⟨h.1, fun id => ih id (h.2 id) (he id)⟩
  | cancel _ _ _ ih => exact fun found => ih found (h found) (he found)
  | report _ _ _ ih => exact ih h he

theorem Script.Posts.map {script : Script α} (f : α → β) (h : script.Posts sent scheduled) :
    (f <$> script).Posts sent scheduled :=
  h.bind (.of_forall (P := fun _ => True) (fun _ => ⟨⟩) _) fun _ _ => ⟨⟩

end Posts

theorem Script.Ends.bind {α β : Type} {P : α → Prop} {Q : β → Prop} {script : Script α}
    {f : α → Script β} (h : script.Ends P) (hf : ∀ a, P a → (f a).Ends Q) : (script >>= f).Ends Q := by
  induction script with
  | done a => exact hf a h
  | send _ _ _ ih | sendTo _ _ _ ih | report _ _ _ ih => exact ih h
  | schedule _ _ _ ih | cancel _ _ _ ih => exact fun answer => ih answer (h answer)

variable {U : Type} [Device U]

/-- A relation between a unit and what it becomes that all it does keeps. -/
structure Law (R : U → U → Prop) : Prop where
  refl : ∀ u, R u u
  trans : ∀ u v w, R u v → R v w → R u w
  receive : ∀ u inlet message s, (Device.receive u inlet message s).Ends (R u)
  emit : ∀ u outlet message s, (Device.emit u outlet message s).Ends (R u)
  process : ∀ {u u' ins outs outs' first last},
    Device.process u ins outs first last = .ok (u', outs') → R u u'
  rewired : ∀ u inlet counts, R u (Device.rewired u inlet counts)

/-- What follows from a law is a law if it goes on from unit to unit. -/
theorem Law.mono {R S : U → U → Prop} (h : Law R) (hRS : ∀ u v, R u v → S u v)
    (htrans : ∀ u v w, S u v → S v w → S u w) : Law S where
  refl u := hRS u u (h.refl u)
  trans := htrans
  receive u inlet message s := (h.receive u inlet message s).mono (hRS u)
  emit u outlet message s := (h.emit u outlet message s).mono (hRS u)
  process hp := hRS _ _ (h.process hp)
  rewired u inlet counts := hRS _ _ (h.rewired u inlet counts)

/-- A unit may become anything. -/
theorem Law.any : Law fun _ _ : U => True where
  refl _ := ⟨⟩
  trans _ _ _ _ _ := ⟨⟩
  receive _ _ _ _ := .of_forall (fun _ => ⟨⟩) _
  emit _ _ _ _ := .of_forall (fun _ => ⟨⟩) _
  process _ := ⟨⟩
  rewired _ _ _ := ⟨⟩

/-- Whether planning treats two units alike. -/
structure Alike (u v : U) : Prop where
  computes : Device.computes v = Device.computes u
  source : ∀ outlet, Device.source v outlet = Device.source u outlet

/-- That units keep what planning looks at, and write no more samples than there are. -/
structure Steady (U : Type) [Device U] : Prop where
  alike : Law (Alike (U := U))
  sizes : ∀ {u u' : U} {ins outs outs' first last},
    Device.process u ins outs first last = .ok (u', outs') →
    outs'.outlets.map Array.size = outs.outlets.map Array.size

/-- That units make the bus they are given no longer and no shorter. -/
def KeepsBuses (U : Type) [Device U] : Prop :=
  ∀ {u u' : U} {ins outs outs' first last},
    Device.process u ins outs first last = .ok (u', outs') →
    outs'.bus.map Array.size = outs.bus.map Array.size

/-- That a map takes each unit to one of another type that is treated and behaves as it is and does. -/
structure Faithful {V : Type} [Device V] (f : V → U) : Prop where
  label : ∀ v, Device.label (f v) = Device.label v
  ports : ∀ v, Device.ports (f v) = Device.ports v
  receive : ∀ v inlet message here,
    Device.receive (f v) inlet message here = f <$> Device.receive v inlet message here
  emit : ∀ v outlet message here,
    Device.emit (f v) outlet message here = f <$> Device.emit v outlet message here
  process : ∀ v ins outs first last, Device.process (f v) ins outs first last =
    (fun r => (f r.1, r.2)) <$> Device.process v ins outs first last
  rewired : ∀ v inlet counts, Device.rewired (f v) inlet counts = f (Device.rewired v inlet counts)
  computes : ∀ v, Device.computes (f v) = Device.computes v
  source : ∀ v outlet, Device.source (f v) outlet = Device.source v outlet
  registration : ∀ v, Device.registration (f v) = Device.registration v
  isSink : ∀ v, Device.isSink (f v) = Device.isSink v
  side : ∀ v, Device.side (f v) = Device.side v

theorem faithful_id : Faithful (id : U → U) where
  label _ := rfl
  ports _ := rfl
  receive _ _ _ _ := (id_map_script _).symm
  emit _ _ _ _ := (id_map_script _).symm
  process v ins outs first last := (id_map (Device.process v ins outs first last)).symm
  rewired _ _ _ := rfl
  computes _ := rfl
  source _ _ := rfl
  registration _ := rfl
  isSink _ := rfl
  side _ := rfl

end Patchbay
