import Patchbay.Graph.Planning
import Patchbay.Proofs.Graph.Search
import Patchbay.Proofs.Graph.Structure

/-!
# When a node waits

A node **waits** if placing it now would lead to a node whose own inlets are still being bound: along
streams, into what it holds, or out to an owner that has not been reached. `Waits` says so by a path,
and `waits_eq` that the planner's search decides it.

Planning never undoes anything, so a node that does not wait will not wait later either
(`Waits.of_advances`).
-/

namespace Patchbay

variable {U : Type}

/-- Whether planning is in the middle of a node. -/
def Draft.Busy (d : Draft) (x : UnitId) : Prop := d.visit x = .binding ∨ d.visit x = .filling

namespace Graph

/-- Whether placing `x`, which has not been reached, leads to placing `y`. -/
def Leads (g : Graph U) (d : Draft) (x y : UnitId) : Prop :=
  g.Streams y x ∨ g.owner? y = some x ∨ g.owner? x = some y ∧ d.visit y = .unvisited

/-- Whether placing a node now would need one whose inlets are still being bound. -/
inductive Waits (g : Graph U) (d : Draft) : UnitId → Prop
  /-- It is such a node itself. -/
  | busy {x : UnitId} : g.contains x = true → d.Busy x → Waits g d x
  /-- It is an inlet of one. -/
  | feed {x o : UnitId} {k : Nat} : d.visit x = .unvisited → g.owner? x = some o →
      g.port? x = some (.inlet, k) → d.visit o = .binding → Waits g d x
  /-- It leads to one. -/
  | step {x y : UnitId} : g.contains x = true → d.visit x = .unvisited → g.Leads d x y →
      Waits g d y → Waits g d x

theorem Waits.contains {g : Graph U} {d : Draft} {x : UnitId} (h : g.Waits d x) :
    g.contains x = true := by
  cases h with
  | busy hx _ => exact hx
  | feed _ ho _ _ => exact contains_of_owner? ho
  | step hx _ _ _ => exact hx

/-! ## The search for a node that is being bound -/

section Search

variable {g : Graph U} {d : Draft}

theorem lookForBusy_of_busy {x : UnitId} (hx : g.contains x = true) (h : d.Busy x) :
    g.lookForBusy d x.index = .found := by
  obtain ⟨n, hn⟩ := contains_iff.1 hx
  rcases h with h | h <;> simp [lookForBusy, hn, h]

theorem lookForBusy_of_feed {x o : UnitId} {k : Nat} (hx : d.visit x = .unvisited)
    (ho : g.owner? x = some o) (hp : g.port? x = some (.inlet, k)) (hb : d.visit o = .binding) :
    g.lookForBusy d x.index = .found := by
  obtain ⟨n, hn⟩ := contains_iff.1 (contains_of_owner? ho)
  have ho' : n.owner = some o := by simpa [owner?, hn] using ho
  have hp' : n.port = some (.inlet, k) := by simpa [port?, hn] using hp
  simp [lookForBusy, hn, hx, ho', hp', hb]

/-- From a node that has not been reached the search goes on to what placing it leads to. -/
theorem lookForBusy_of_unvisited (hw : g.Wired) (hg : g.Nested) {x : UnitId}
    (hx : g.contains x = true) (hv : d.visit x = .unvisited) :
    g.lookForBusy d x.index = .found ∧
      (∃ o k, g.owner? x = some o ∧ g.port? x = some (.inlet, k) ∧ d.visit o = .binding) ∨
    ∃ next, g.lookForBusy d x.index = .expand next ∧
      ∀ y : UnitId, y.index ∈ next ↔ g.Leads d x y := by
  obtain ⟨n, hn⟩ := contains_iff.1 hx
  have hports : g.ports x = n.ports := by simp [ports, hn]
  have hindex : ∀ {l : List UnitId} {y : UnitId}, y.index ∈ l.map UnitId.index ↔ y ∈ l := by
    intro l y
    rw [List.mem_map]
    refine ⟨?_, fun h => ⟨y, h, rfl⟩⟩
    rintro ⟨z, hz, he⟩
    cases z
    cases y
    simp_all
  have hsource : ∀ y, y ∈ ((List.range n.ports.streamInlets).flatMap fun i =>
      (g.streamSources x i).map (·.source)) ↔ g.Streams y x := by
    intro y
    simp only [List.mem_flatMap, List.mem_range, List.mem_map, mem_streamSources]
    constructor
    · rintro ⟨i, -, c, ⟨hc, hk, hd, -⟩, rfl⟩
      exact ⟨c, hc, hk, rfl, hd⟩
    · rintro ⟨c, hc, hk, rfl, rfl⟩
      exact ⟨c.inlet, hports ▸ hw.streamInlet c hc hk, c, ⟨hc, hk, rfl, rfl⟩, rfl⟩
  have hinside : ∀ y, y ∈ g.children x ↔ g.owner? y = some x := fun y => hg.mem_children
  cases ho : n.owner with
  | none =>
    have ho' : g.owner? x = none := by simp [owner?, hn, ho]
    refine .inr ⟨_, by simp only [lookForBusy, hn, hv, ho]; rfl, fun y => ?_⟩
    simp [hindex, hsource, hinside, Leads, ho']
  | some o =>
    have ho' : g.owner? x = some o := by simp [owner?, hn, ho]
    have hp' : g.port? x = n.port := by simp [port?, hn]
    by_cases hvo : d.visit o = .unvisited
    · refine .inr ⟨_, by simp only [lookForBusy, hn, hv, ho, hvo]; rfl, fun y => ?_⟩
      rw [hindex, List.mem_append, List.mem_cons, hsource, hinside, Leads, ho']
      constructor
      · rintro (h | rfl | h)
        · exact .inl h
        · exact .inr (.inr ⟨rfl, hvo⟩)
        · exact .inr (.inl h)
      · rintro (h | h | ⟨h, -⟩)
        · exact .inl h
        · exact .inr (.inr h)
        · exact .inr (.inl (Option.some.inj h).symm)
    · have hleads : ∀ y : UnitId, y.index ∈ (((List.range n.ports.streamInlets).flatMap fun i =>
          (g.streamSources x i).map (·.source)) ++ g.children x).map UnitId.index ↔
          g.Leads d x y := by
        intro y
        rw [hindex, List.mem_append, hsource, hinside, Leads, ho']
        constructor
        · rintro (h | h)
          · exact .inl h
          · exact .inr (.inl h)
        · rintro (h | h | ⟨h, h'⟩)
          · exact .inl h
          · exact .inr h
          · cases h
            exact absurd h' hvo
      by_cases hfeed : d.visit o = .binding ∧ ∃ k, n.port = some (.inlet, k)
      · obtain ⟨hb, k, hk⟩ := hfeed
        exact .inl ⟨lookForBusy_of_feed hv ho' (hp' ▸ hk) hb, o, k, ho', hp' ▸ hk, hb⟩
      · refine .inr ⟨_, ?_, hleads⟩
        simp only [lookForBusy, hn, hv, ho]
        split
        · next h => exact absurd h hvo
        · next h hp => exact absurd ⟨h, _, hp⟩ hfeed
        · rfl

/-- The search finds out whether a node waits. -/
theorem waits_eq (hw : g.Wired) (hg : g.Nested) {x : UnitId} (hx : g.contains x = true) :
    ∃ b, g.waits d x = .ok b ∧ (b = true ↔ g.Waits d x) := by
  refine ⟨_, if_pos (lt_size_of_contains hx), ?_⟩
  simp only [search_iff, List.mem_singleton, exists_eq_left]
  have hstep : ∀ {x : UnitId}, Finds g.nodes.size (g.lookForBusy d) x.index →
      g.contains x = true := by
    intro x h
    by_contra hx
    have hn : g.node? x = none := by
      cases hn : g.node? x with
      | none => rfl
      | some n => exact absurd (contains_iff.2 ⟨n, hn⟩) hx
    have hlook : g.lookForBusy d x.index = .expand [] := by simp [lookForBusy, hn]
    cases h with
    | here _ h => simp [hlook] at h
    | next _ h hy _ =>
      rw [hlook] at h
      cases h
      simp at hy
  constructor
  · intro h
    generalize hi : x.index = i at h
    induction h generalizing x with
    | here hlt hlook =>
      subst hi
      cases hv : d.visit x with
      | unvisited =>
        rcases lookForBusy_of_unvisited hw hg hx hv with ⟨-, o, k, ho, hp, hb⟩ | ⟨next, h, -⟩
        · exact .feed hv ho hp hb
        · rw [hlook] at h
          cases h
      | binding => exact .busy hx (.inl hv)
      | filling => exact .busy hx (.inr hv)
      | placed =>
        obtain ⟨n, hn⟩ := contains_iff.1 hx
        simp [lookForBusy, hn, hv] at hlook
    | @next _ y next hlt hlook hy hf ih =>
      subst hi
      cases hv : d.visit x with
      | unvisited =>
        rcases lookForBusy_of_unvisited hw hg hx hv with ⟨h, -⟩ | ⟨next', h, hleads⟩
        · rw [hlook] at h
          cases h
        · rw [hlook] at h
          cases h
          exact .step hx hv ((hleads ⟨y⟩).1 hy) (ih (hstep (x := ⟨y⟩) hf) rfl)
      | binding => simp [lookForBusy_of_busy hx (.inl hv)] at hlook
      | filling => simp [lookForBusy_of_busy hx (.inr hv)] at hlook
      | placed =>
        obtain ⟨n, hn⟩ := contains_iff.1 hx
        simp only [lookForBusy, hn, hv] at hlook
        cases hlook
        simp at hy
  · intro h
    induction h with
    | busy hx hb => exact .here (lt_size_of_contains hx) (lookForBusy_of_busy hx hb)
    | feed hv ho hp hb =>
      exact .here (lt_size_of_contains (contains_of_owner? ho)) (lookForBusy_of_feed hv ho hp hb)
    | step hx hv hl hw' ih =>
      have hlt := lt_size_of_contains hx
      rcases lookForBusy_of_unvisited hw hg hx hv with ⟨h, -⟩ | ⟨next, h, hleads⟩
      · exact .here hlt h
      · exact .next hlt h ((hleads _).2 hl) (ih hw'.contains)

end Search
end Graph
end Patchbay
