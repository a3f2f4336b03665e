import Patchbay.Proofs.Catalogue.Fitting
import Patchbay.Proofs.Catalogue.Pieces

/-!
# Modes

A stream operator works on streams alone exactly when both of its inlets have one, and an oscillator
has its frequency from a stream exactly when its left inlet has one (`Attuned`). What a unit was told
last decides it, and nothing else that the unit does changes it. What the catalogue makes is at rest: it
fits where no streams arrive (`Made.rests`).
-/

namespace Patchbay.CatalogueUnit

open Catalogue

/-- Whether a unit has become another that works as the number of streams at each inlet asks for. Of
the units with modes alone this can be said. -/
def Attuned (u : CatalogueUnit) (known : Nat → Nat) (v : CatalogueUnit) : Prop :=
  match u, v with
  | streamOperator u, streamOperator v =>
    v.op = u.op ∧ (v.mode = .signal ↔ 0 < known 0 ∧ 0 < known 1)
  | oscillator shape _, oscillator shape' v => shape' = shape ∧ (v.mode = .signal ↔ 0 < known 0)
  | _, _ => False

/-- Whether a unit works as where no streams arrive, if it has modes. -/
def Rests : CatalogueUnit → Prop
  | streamOperator u => u.mode = .scalar
  | oscillator _ u => u.mode = .scalar
  | _ => True

variable {u v v' : CatalogueUnit} {known : Nat → Nat}

/-! ## Units stay attuned -/

theorem attuned_receive (h : Attuned u known v) (inlet : Nat) (message : Message)
    (here : Surroundings) : (v.receive inlet message here).Ends (Attuned u known) := by
  unfold Attuned at h
  split at h
  · next u v =>
    refine .map ?_
    unfold StreamOperator.receive
    split
    · exact Script.Ends.bind (.of_forall (P := fun _ => True) (fun _ => ⟨⟩) _) fun _ _ => h
    · exact h
  · next shape u shape' v =>
    show Attuned (oscillator shape u) known (oscillator shape' (v.receive inlet message))
    unfold Phase.receive
    split <;> exact h
  · exact h.elim

theorem attuned_emit (h : Attuned u known v) (outlet : Nat) (message : Message) :
    (v.emit outlet message).Ends (Attuned u known) := by
  cases v with
  | metro | delay => cases u <;> exact h.elim
  | _ => exact h

theorem mode_process {u u' : Phase} {shape : Float32 → Float32} {ins : Inputs} {outs outs' : Outputs}
    {first last : Nat} (h : u.process shape ins outs first last = .ok (u', outs')) :
    u'.mode = u.mode := by
  obtain ⟨inlet, -, h⟩ := bind_eq_ok.1 h
  obtain ⟨input, -, h⟩ := bind_eq_ok.1 h
  obtain ⟨_, -, h⟩ := bind_eq_ok.1 h
  cases h
  have hstep : ∀ (s : Phase) x, s.mode = u.mode → (Phase.step s x).2.mode = u.mode := fun _ _ hs => hs
  exact feed_keeps (P := fun s : Phase => s.mode = u.mode) hstep rfl

theorem attuned_process (h : Attuned u known v) {ins : Inputs} {outs outs' : Outputs}
    {first last : Nat} (hp : v.process ins outs first last = .ok (v', outs')) : Attuned u known v' := by
  unfold Attuned at h
  split at h
  · next u v =>
    obtain ⟨_, -, hp⟩ := bind_eq_ok.1 hp
    cases hp
    exact h
  · next shape u shape' v =>
    obtain ⟨⟨w, _⟩, hw, hp⟩ := bind_eq_ok.1 hp
    cases hp
    exact ⟨h.1, (mode_process hw).symm ▸ h.2⟩
  · exact h.elim

/-- A unit that is told how many streams arrive is attuned to that. -/
theorem attuned_rewired (h : Attuned u known v) (counts : List Nat) :
    Attuned u (streamsAt counts) (v.rewired counts) := by
  have hmode : ∀ {p : Prop} [Decidable p], (if p then Mode.signal else .scalar) = .signal ↔ p := by
    intro p _
    split <;> simp [*]
  unfold Attuned at h
  split at h
  · exact ⟨h.1, hmode⟩
  · exact ⟨h.1, hmode⟩
  · exact h.elim

/-! ## Units at rest -/

/-- A unit that works as where no streams arrive is at rest. -/
theorem rests_of_attuned (h : Attuned u (fun _ => 0) v) : v.Rests := by
  unfold Attuned at h
  split at h
  · next u v => cases hm : v.mode <;> simp_all [Rests]
  · next shape u shape' v => cases hm : v.mode <;> simp_all [Rests]
  · exact h.elim

theorem attuned_streamOperator {u : StreamOperator} (h : (streamOperator u).Rests) :
    Attuned (streamOperator u) (fun _ => 0) (streamOperator u) := by
  have hmode : u.mode = .scalar := h
  simp [Attuned, hmode]

theorem attuned_oscillator {shape : Shape} {u : Phase} (h : (oscillator shape u).Rests) :
    Attuned (oscillator shape u) (fun _ => 0) (oscillator shape u) := by
  have hmode : u.mode = .scalar := h
  simp [Attuned, hmode]

theorem rests_of_entry (settings : Settings) (args : Message) :
    ∀ entry ∈ entries, Makes Rests (entry.make args settings) := by
  have hmap : ∀ {α : Type} {f : α → CatalogueUnit} (making : Making α), (∀ a, (f a).Rests) →
      Makes Rests (f <$> making) := fun making hf => makes_map (makes_any making) fun a _ => hf a
  have hoperator : ∀ op, Makes Rests (streamOperator <$> StreamOperator.make op args) := fun op =>
    makes_map (P := fun v : StreamOperator => v.mode = .scalar)
      (fun reports => Yields.bind (makes_any (op.operand op.streamLabel args) reports) fun _ _ _ => rfl)
      fun _ h => h
  have hoscillator : ∀ shape : Shape,
      Makes Rests (oscillator shape <$> Phase.make shape.label args settings) := fun shape =>
    makes_map (P := fun v : Phase => v.mode = .scalar)
      (fun reports => Yields.bind (makes_any (Making.float shape.label args 0 0) reports)
        fun _ _ _ => rfl) fun _ h => h
  simp only [entries, List.forall_mem_cons]
  repeat' apply And.intro
  all_goals first
    | exact hoperator _
    | exact hoscillator _
    | exact hmap _ fun _ => ⟨⟩
    | exact fun _ => ⟨⟩
    | exact fun _ h => by cases h

/-- What the catalogue makes is at rest. -/
theorem Made.rests {settings : Settings} (h : Made settings u) : u.Rests :=
  h.of_entries (fun _ => ⟨⟩) (rests_of_entry settings)

end Patchbay.CatalogueUnit
