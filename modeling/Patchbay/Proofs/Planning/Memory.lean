import Patchbay.Proofs.Planning.Books

/-!
# What buffers hold

The steps of a plan act on a memory of buffers: a sum writes one buffer, and a unit those at its own
outlets. `memoryMeaning` says that a buffer holds the sum of some ports if it has just the samples
that these ports sound like, whatever was in the buffers before. With it the ledger says of every
buffer what is in it, at the moment when it is read.
-/

namespace Patchbay

instance (b : Binding) (o : Nat) (buffer : BufferId) : Decidable (b.Owns o buffer) :=
  inferInstanceAs (Decidable (_ ∧ _))

/-- The outlet at which a unit writes a buffer. -/
def Binding.writer? (b : Binding) (i : Nat) : Option Nat :=
  (List.range b.outlets.size).find? fun o => b.Owns o (.pooled i)

theorem Binding.writer?_eq_none {b : Binding} {i : Nat} :
    b.writer? i = none ↔ ∀ o, ¬ b.Owns o (.pooled i) := by
  simp only [writer?, List.find?_eq_none, List.mem_range, decide_eq_true_eq]
  exact ⟨fun h o ho => h o (Array.getElem?_eq_some_iff.1 ho.1).1 ho, fun h o _ => h o⟩

theorem Binding.writer?_eq_some {b : Binding} {i o : Nat} (h : b.Owns o (.pooled i))
    (honce : ∀ o', b.Owns o' (.pooled i) → o' = o) : b.writer? i = some o := by
  cases hw : b.writer? i with
  | none => exact absurd h (writer?_eq_none.1 hw o)
  | some o' =>
    have := List.find?_some hw
    rw [honce o' (by simpa using this)]

/-- The samples in every buffer. -/
abbrev Memory := Nat → Samples

namespace Memory

/-- The samples in a buffer. Silence has as many as a block. -/
def read (m : Memory) (size : Nat) : BufferId → Samples
  | .zero => silence size
  | .pooled i => m i

@[simp]
theorem read_zero (m : Memory) (size : Nat) : m.read size .zero = silence size := rfl

@[simp]
theorem read_pooled (m : Memory) (size i : Nat) : m.read size (.pooled i) = m i := rfl

/-- The memory after a unit has written its outlets. -/
def write (m : Memory) (b : Binding) (xs : Nat → Samples) : Memory := fun i =>
  match b.writer? i with
  | some o => xs o
  | none => m i

/-- The memory after a step. -/
def step (size : Nat) (bindings : UnitId → Binding) (written : UnitId → Nat → Samples) (m : Memory) :
    Step → Memory
  | .sum left right (.pooled i) =>
    fun j => if j = i then Graph.mixed (m.read size left) (m.read size right) else m j
  | .sum _ _ .zero => m
  | .unit x => m.write (bindings x) (written x)

/-- The memory after some steps. -/
def run (size : Nat) (bindings : UnitId → Binding) (written : UnitId → Nat → Samples) (m : Memory)
    (steps : List Step) : Memory := steps.foldl (step size bindings written) m

theorem run_push {size : Nat} {bindings : UnitId → Binding} {written : UnitId → Nat → Samples}
    {m : Memory} {steps : Array Step} {s : Step} :
    m.run size bindings written (steps.push s).toList =
      (m.run size bindings written steps.toList).step size bindings written s := by
  simp [run]

/-- What units write matters only for those that have a step. -/
theorem run_congr {size : Nat} {bindings : UnitId → Binding} {written written' : UnitId → Nat → Samples}
    {steps : List Step} (h : ∀ x, .unit x ∈ steps → written x = written' x) (m : Memory) :
    m.run size bindings written steps = m.run size bindings written' steps := by
  induction steps generalizing m with
  | nil => rfl
  | cons s steps ih =>
    have hs : m.step size bindings written s = m.step size bindings written' s := by
      cases s with
      | unit x => simp only [step, h x List.mem_cons_self]
      | sum left right out => cases out <;> rfl
    rw [run, run, List.foldl_cons, List.foldl_cons, hs]
    exact ih (fun x hx => h x (List.mem_cons_of_mem _ hx)) _

theorem read_write_of_not_owns {m : Memory} {size : Nat} {b : Binding} {xs : Nat → Samples}
    {buffer : BufferId} (h : ∀ o, ¬ b.Owns o buffer) :
    (m.write b xs).read size buffer = m.read size buffer := by
  cases buffer with
  | zero => rfl
  | pooled i => simp [write, Binding.writer?_eq_none.2 h]

end Memory

variable {U : Type} [Device U]

namespace Graph

variable {g : Graph U}

/-- Whether a buffer has the samples that some ports sound like, after the steps of a draft. -/
def Has (g : Graph U) (written : UnitId → Nat → Samples) (d : Draft) (b : BufferId)
    (ports : List StreamPort) : Prop :=
  ∃ xs, g.Sounds written ports xs ∧
    ∀ (bindings : UnitId → Binding) (m : Memory),
      (∀ x, d.visit x = .placed → g.isSubgraph x = false → bindings x = d.binding x) →
      (m.run g.blockSize bindings written d.steps.toList).read g.blockSize b = xs

/-- That every unit with a stream of its own computes. -/
def PooledComputes (g : Graph U) : Prop :=
  ∀ x n u o, g.node? x = some n → n.body = .device u → o < (g.ports x).streamOutlets →
    Device.source u o = .pooled → Device.computes u = true

/-- A buffer holds some ports if it has their samples. -/
def memoryMeaning (g : Graph U) (written : UnitId → Nat → Samples) (hg : g.PooledComputes) :
    g.Meaning where
  Holds := g.Has written
  silent := ⟨_, .silence, fun _ _ _ => rfl⟩
  keep := by
    rintro d d' b ports ⟨xs, hxs, h⟩ hsteps hkeep
    refine ⟨xs, hxs, fun bindings m hb => ?_⟩
    rw [hsteps]
    refine h bindings m fun x hx hunit => ?_
    obtain ⟨hx', hbinding⟩ := hkeep x hx hunit
    rw [hb x hx' hunit, hbinding]
  inlet := by
    rintro d b x i ⟨xs, hxs, h⟩
    exact ⟨xs, .inlet hxs, h⟩
  sum := by
    rintro d left right i ports port hne ⟨xs, hxs, h⟩ ⟨ys, hys, h'⟩
    refine ⟨mixed xs ys, .mix hne hxs hys, fun bindings m hb => ?_⟩
    dsimp only
    rw [Memory.run_push]
    simp only [Memory.step, Memory.read_pooled, if_true]
    rw [h bindings m hb, h' bindings m hb]
  sumOther := by
    rintro d b left right i ports hne ⟨xs, hxs, h⟩
    refine ⟨xs, hxs, fun bindings m hb => ?_⟩
    dsimp only
    rw [Memory.run_push, ← h bindings m hb]
    cases b with
    | zero => rfl
    | pooled j =>
      have : j ≠ i := fun he => hne (by rw [he])
      simp [Memory.step, this]
  own := by
    rintro d d' x n u o i hp hu hs ho hown honce
    refine ⟨_, .own hp.node hu hs, fun bindings m hb => ?_⟩
    have hcomputes : n.body.computes = true := by
      rw [hu]
      exact hg x n u o hp.node hu ho hs
    have hunit : g.isSubgraph x = false := by simp [isSubgraph, hp.node, Node.isSubgraph, hu]
    rw [hp.steps, if_pos hcomputes, Memory.run_push]
    simp [Memory.step, Memory.write, hb x hp.placed hunit,
      Binding.writer?_eq_some hown honce]
  ownOther := by
    rintro d d' x n u b ports hp hu hnot ⟨xs, hxs, h⟩
    refine ⟨xs, hxs, fun bindings m hb => ?_⟩
    have hunit : g.isSubgraph x = false := by simp [isSubgraph, hp.node, Node.isSubgraph, hu]
    have hold : ∀ y, d.visit y = .placed → g.isSubgraph y = false → bindings y = d.binding y := by
      intro y hy hyu
      obtain ⟨hy', hbinding⟩ := hp.keeps y hy hyu
      rw [hb y hy' hyu, hbinding]
    rw [← h bindings m hold, hp.steps]
    split
    · rw [Memory.run_push, Memory.step, hb x hp.placed hunit, Memory.read_write_of_not_owns hnot]
    · rfl
  forward := by
    rintro d x n u o j b hn hu hs hj ⟨xs, hxs, h⟩
    exact ⟨xs, .forward hn hu hs hj hxs, h⟩
  lost hn hu hs hj := ⟨_, .lost hn hu hs hj, fun _ _ _ => rfl⟩
  through := by
    rintro d x b k buffer hsub hpu hpos ⟨xs, hxs, h⟩
    exact ⟨xs, .through hsub hpu hpos hxs, h⟩
  closed hsub hnone := ⟨_, .closed hsub hnone, fun _ _ _ => rfl⟩

end Graph
end Patchbay
