import Patchbay.Catalogue
import Patchbay.Proofs.Device
import Patchbay.Proofs.Outcome

/-!
# What units of the catalogue fit

A unit with channels of the host has no more of them than the settings say, and one that records goes
on at a place of its store. It is made so (`Made.fits`), and stays so whatever it receives; a store that
gets longer does no harm (`Fits.mono`).
-/

namespace Patchbay.CatalogueUnit

open Catalogue

/-- That a unit has no more channels than the settings, and is to record at a place that its store
has, if it has one of a length. -/
def Fits (settings : Settings) (room : Option Nat) : CatalogueUnit → Prop
  | hostInput u => u.channels ≤ settings.inputChannels
  | hostOutput u => u.channels ≤ settings.outputChannels
  | tableWriter u => ∀ start length, u.position = some start → room = some length → start ≤ length
  | _ => True

variable {settings : Settings} {room : Option Nat} {u : CatalogueUnit}

/-- A store may get longer. -/
theorem Fits.mono (h : u.Fits settings room) {room' : Option Nat}
    (hroom : ∀ length', room' = some length' → ∃ length, room = some length ∧ length ≤ length') :
    u.Fits settings room' := by
  cases u with
  | tableWriter v =>
    intro start length' hstart hlength'
    obtain ⟨length, hlength, hle⟩ := hroom length' hlength'
    exact (h start length hstart hlength).trans hle
  | _ => exact h

theorem fits_receive (h : u.Fits settings room) (inlet : Nat) (message : Message)
    (here : Surroundings) : (u.receive inlet message here).Ends (Fits settings room) := by
  cases u with
  | hostInput | hostOutput | linkWriter | linkReader | table | tableReader | delayWriter => exact h
  | constant | ramp | oscillator | delayReader => exact ⟨⟩
  | tableWriter v =>
    show (tableWriter (v.receive message)).Fits settings room
    unfold TableWriter.receive
    split
    · rintro _ length ⟨⟩ -
      exact Nat.zero_le length
    · split
      · rintro _ _ ⟨⟩
      · exact h
  | _ => exact .map (.of_forall (fun _ => ⟨⟩) _)

theorem fits_emit (h : u.Fits settings room) (outlet : Nat) (message : Message) :
    (u.emit outlet message).Ends (Fits settings room) := by
  cases u with
  | metro | delay => exact .map (.of_forall (fun _ => ⟨⟩) _)
  | _ => exact h

theorem fits_rewired (h : u.Fits settings room) (counts : List Nat) :
    (u.rewired counts).Fits settings room := by
  cases u <;> exact h

/-! ## Making -/

/-- Whether the catalogue makes a unit for some settings. -/
def Made (settings : Settings) (u : CatalogueUnit) : Prop :=
  ∃ label args reports reports', create label args settings reports = .ok (some u) reports'

theorem made_of_create {settings : Settings} {u : CatalogueUnit} (label : String) (args : Message)
    (h : (match create label args settings #[] with
      | .ok made _ => decide (made = some u)
      | .error .. => false) = true) : u.Made settings := by
  cases hcreate : create label args settings #[] with
  | error how reports =>
    rw [hcreate] at h
    cases h
  | ok made reports =>
    rw [hcreate] at h
    exact ⟨label, args, #[], reports, of_decide_eq_true h ▸ hcreate⟩

/-- That whatever is made has a property. -/
abbrev Makes {α : Type} (P : α → Prop) (making : Making α) : Prop :=
  ∀ reports, Yields (fun _ _ => True) (fun a _ => P a) (making reports)

theorem makes_map {α β : Type} {P : α → Prop} {Q : β → Prop} {f : α → β} {making : Making α}
    (h : Makes P making) (hf : ∀ a, P a → Q (f a)) : Makes Q (f <$> making) := by
  intro reports
  have hmade := h reports
  show Yields _ _ (EStateM.map f making reports)
  unfold EStateM.map
  cases hr : making reports with
  | error how _ => exact ⟨⟩
  | ok a _ =>
    rw [hr] at hmade
    exact hf a hmade

theorem makes_any {α : Type} (making : Making α) : Makes (fun _ => True) making := by
  intro reports
  cases making reports <;> exact ⟨⟩

theorem makes_tableWriter (args : Message) :
    Makes (fun v => v.position = none) (TableWriter.make args) := fun reports =>
  Yields.bind (makes_any (Making.name "tabwrite~" args 0) reports) fun _ _ _ => rfl

/-- A unit is made to fit. -/
theorem fits_of_entry (settings : Settings) (room : Option Nat) (args : Message) :
    ∀ entry ∈ entries, Makes (Fits settings room) (entry.make args settings) := by
  have hmap : ∀ {α : Type} {f : α → CatalogueUnit} (making : Making α),
      (∀ a, (f a).Fits settings room) → Makes (Fits settings room) (f <$> making) :=
    fun making hf => makes_map (makes_any making) fun a _ => hf a
  have hwriter : Makes (Fits settings room) (tableWriter <$> TableWriter.make args) := by
    refine makes_map (makes_tableWriter args) fun v hv start length hstart _ => ?_
    rw [hv] at hstart
    cases hstart
  simp only [entries, List.forall_mem_cons]
  refine ⟨fun _ => Nat.le_refl _, fun _ => Nat.le_refl _, ?_⟩
  repeat' apply And.intro
  all_goals first
    | exact hwriter
    | exact hmap _ fun _ => ⟨⟩
    | exact fun _ => ⟨⟩
    | exact fun _ h => nomatch h

/-- What all entries make, and a number too, the catalogue makes. -/
theorem Made.of_entries {P : CatalogueUnit → Prop} {settings : Settings} {u : CatalogueUnit}
    (h : Made settings u) (hnumber : ∀ value, P (floatBox ⟨value⟩))
    (hentries : ∀ args, ∀ entry ∈ entries, Makes P (entry.make args settings)) : P u := by
  obtain ⟨label, args, reports, reports', hcreate⟩ := h
  rw [create] at hcreate
  cases hlabel : numberLabel? label with
  | some value =>
    simp only [hlabel] at hcreate
    cases hcreate
    exact hnumber value
  | none =>
    simp only [hlabel] at hcreate
    cases hentry : find? label with
    | none =>
      simp only [hentry] at hcreate
      cases hcreate
    | some entry =>
      simp only [hentry] at hcreate
      have hmade := makes_map (Q := fun u? : Option CatalogueUnit => ∀ u, u? = some u → P u)
        (hentries args entry (List.mem_of_find?_eq_some hentry))
        (fun u hu _ h => Option.some.inj h ▸ hu) reports
      exact hmade.of_ok hcreate u rfl

/-- What the catalogue makes fits, whatever its store. -/
theorem Made.fits {settings : Settings} {u : CatalogueUnit} (h : Made settings u) (room : Option Nat) :
    u.Fits settings room :=
  h.of_entries (fun _ => ⟨⟩) (fits_of_entry settings room)

end Patchbay.CatalogueUnit
