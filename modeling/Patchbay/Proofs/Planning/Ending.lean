import Patchbay.Proofs.Planning.Pooling
import Patchbay.Proofs.Planning.Visiting

/-!
# Planning does not get lost

However a graph is laid out, planning it ends, and every buffer that it goes back to is one of the
pool's (`fullDraft_found`). What is left to fail is the accounting of the readers.
-/

namespace Patchbay

variable {U : Type} [Device U]

/-- That every buffer that a draft and the nodes on the stack have is one of the pool's. -/
structure Draft.Found (fs : List Graph.Frame) (d : Draft) : Prop where
  pool : d.pool.Regular
  inlets : ∀ x, ∀ b ∈ (d.binding x).inlets, b.Below d.pool.size
  outlets : ∀ x, ∀ b ∈ (d.binding x).outlets, b.Below d.pool.size
  frames : ∀ f ∈ fs, ∀ b ∈ f.inlets, b.Below d.pool.size

/-- That work does not get lost, and comes to something good unless the accounting stops it. -/
abbrev Arrives {α : Type} (good : α → Prop) (x : Except Fault α) : Prop :=
  Outcome (¬ ·.Lost) good x

theorem BufferId.zero_below (size : Nat) : BufferId.zero.Below size := fun _ h => by cases h

theorem Pool.Regular.releaseAll {p : Pool} (h : p.Regular) {l : List BufferId}
    (hl : ∀ b ∈ l, b.Below p.size) :
    Arrives (fun q => q.Regular ∧ q.size = p.size) (l.foldlM Pool.release p) := by
  refine Outcome.foldlM (fun (_ : List BufferId) (q : Pool) => q.Regular ∧ q.size = p.size)
    ⟨h, rfl⟩ ?_
  rintro done b rest q hsplit ⟨hq, hsize⟩
  have hb : b.Below q.size := by
    rw [hsize]
    exact hl b (by simp [hsplit])
  exact (hq.release hb).mono fun r hr => ⟨hr.1, hr.2.trans hsize⟩

namespace Draft

variable {d d' : Draft} {fs : List Graph.Frame} {x : UnitId}

theorem releaseAll_found (hd : d.pool.Regular) {l : List BufferId}
    (hl : ∀ b ∈ l, b.Below d.pool.size) :
    Arrives (fun d' => d'.pool.Regular ∧ d'.pool.size = d.pool.size ∧ d'.bindings = d.bindings)
      (d.releaseAll l) :=
  (hd.releaseAll hl).bind fun _ h => ⟨h.1, h.2, rfl⟩

theorem outlet_below (h : d.Found fs) (x : UnitId) (k : Nat) :
    (d.outlet x k).Below d.pool.size := by
  unfold outlet
  cases hk : (d.binding x).outlets[k]? with
  | none => exact BufferId.zero_below _
  | some b => exact h.outlets x b (Array.mem_of_getElem? hk)

/-- Buffers are found where they were as long as the pool keeps them. -/
theorem Found.of_bindings (h : d.Found fs) (hreg : d'.pool.Regular)
    (hsize : d.pool.size ≤ d'.pool.size) (hb : d'.bindings = d.bindings) : d'.Found fs := by
  have hbinding : ∀ x, d'.binding x = d.binding x := fun x => by rw [binding, binding, hb]
  refine ⟨hreg, fun x b hx => ?_, fun x b hx => ?_, fun f hf b hx => (h.frames f hf b hx).mono hsize⟩
  · rw [hbinding] at hx
    exact (h.inlets x b hx).mono hsize
  · rw [hbinding] at hx
    exact (h.outlets x b hx).mono hsize

/-- A node may be bound to buffers of the pool. -/
theorem Found.bind (h : d.Found fs) (x : UnitId) {bd : Binding} (hin : ∀ b ∈ bd.inlets, b.Below d.pool.size)
    (hout : ∀ b ∈ bd.outlets, b.Below d.pool.size) : (d.bind x bd).Found fs := by
  have hbinding : ∀ y, (d.bind x bd).binding y = bd ∨ (d.bind x bd).binding y = d.binding y := by
    intro y
    by_cases hlt : x.index < d.bindings.size
    · rw [binding_bind hlt]
      split
      · exact .inl rfl
      · exact .inr rfl
    · refine .inr ?_
      rw [binding, binding, Draft.bind,
        Array.setIfInBounds_eq_of_size_le (Nat.le_of_not_lt hlt)]
  refine ⟨h.pool, fun y b hy => ?_, fun y b hy => ?_, h.frames⟩
  · rcases hbinding y with he | he <;> rw [he] at hy
    · exact hin b hy
    · exact h.inlets y b hy
  · rcases hbinding y with he | he <;> rw [he] at hy
    · exact hout b hy
    · exact h.outlets y b hy

theorem Found.mark (h : d.Found fs) (v : Visit) : (d.mark x v).Found fs :=
  ⟨h.pool, h.inlets, h.outlets, h.frames⟩

theorem Found.tail {f : Graph.Frame} (h : d.Found (f :: fs)) : d.Found fs :=
  ⟨h.pool, h.inlets, h.outlets, fun f hf => h.frames f (List.mem_cons_of_mem _ hf)⟩

theorem Found.push {f : Graph.Frame} (h : d.Found fs) (hf : ∀ b ∈ f.inlets, b.Below d.pool.size) :
    d.Found (f :: fs) :=
  ⟨h.pool, h.inlets, h.outlets, fun f' hf' => by
    rcases List.mem_cons.1 hf' with rfl | hf'
    · exact hf
    · exact h.frames f' hf'⟩

end Draft

namespace Graph

variable {g : Graph U} {d : Draft} {fs : List Frame} {x : UnitId} {n : Node U}

/-! ## Inlets -/

omit [Device U] in
theorem boundaryFeed_found (hd : d.Found fs) (inlet : Nat) :
    Arrives (fun r : List BufferId × Draft => (∀ b ∈ r.1, b.Below r.2.pool.size) ∧
      r.2.pool.Regular ∧ r.2.pool.size = d.pool.size ∧ r.2.bindings = d.bindings)
      (boundaryFeed d n inlet) := by
  unfold boundaryFeed
  split
  · split
    · exact ⟨by simp, hd.pool, rfl, rfl⟩
    · split
      · exact ⟨by simp, hd.pool, rfl, rfl⟩
      · next buffer hbuffer =>
        have hb : buffer.Below d.pool.size := hd.inlets _ _ (Array.mem_of_getElem? hbuffer)
        refine (hd.pool.reserve hb 1).bind fun q hq => ⟨fun b hmem => ?_, hq.1, hq.2, rfl⟩
        rw [List.mem_singleton.1 hmem]
        exact hq.2.symm ▸ hb
  · exact ⟨by simp, hd.pool, rfl, rfl⟩

theorem addToSum_found {left right : BufferId} (hd : d.pool.Regular)
    (hleft : left.Below d.pool.size) (hright : right.Below d.pool.size) :
    Arrives (fun r : BufferId × Draft => r.1.Below r.2.pool.size ∧ r.2.pool.Regular ∧
      d.pool.size ≤ r.2.pool.size) (addToSum (left, d) right) := by
  obtain ⟨hreg, hout, hle⟩ := hd.acquire 1
  unfold addToSum
  dsimp only
  refine (Draft.releaseAll_found hreg fun b hb => ?_).bind fun d' h => ⟨?_, h.1, ?_⟩
  · simp only [List.mem_cons, List.not_mem_nil, or_false] at hb
    rcases hb with rfl | rfl
    · exact hleft.mono hle
    · exact hright.mono hle
  · exact hout.mono (le_of_eq h.2.1.symm)
  · exact hle.trans (le_of_eq h.2.1.symm)

omit [Device U] in
theorem mixInlet_found (hd : d.Found fs) (inlet : Nat) :
    Arrives (fun r : BufferId × Draft => r.1.Below r.2.pool.size ∧ r.2.pool.Regular ∧
      d.pool.size ≤ r.2.pool.size) (g.mixInlet x n d inlet) := by
  unfold mixInlet
  refine (boundaryFeed_found hd inlet).bind ?_
  rintro ⟨feed, d₁⟩ ⟨hfeed, hreg, hsize, hbindings⟩
  dsimp only at hfeed hreg hsize hbindings ⊢
  have hd₁ : d₁.Found fs := hd.of_bindings hreg (le_of_eq hsize.symm) hbindings
  have hread : ∀ b ∈ feed ++ (g.streamSources x inlet).map fun c => d₁.outlet c.source c.outlet,
      b.Below d₁.pool.size := by
    intro b hb
    rcases List.mem_append.1 hb with hb | hb
    · exact hfeed b hb
    · obtain ⟨c, -, rfl⟩ := List.mem_map.1 hb
      exact Draft.outlet_below hd₁ _ _
  split
  · exact ⟨BufferId.zero_below _, hreg, le_of_eq hsize.symm⟩
  · next first rest heq =>
    rw [heq] at hread
    refine (Outcome.foldlM (fun (_ : List BufferId) (r : BufferId × Draft) =>
      r.1.Below r.2.pool.size ∧ r.2.pool.Regular ∧ d₁.pool.size ≤ r.2.pool.size)
      ⟨hread first List.mem_cons_self, hreg, le_refl _⟩ ?_).mono fun r h => ⟨h.1, h.2.1, ?_⟩
    · rintro done b rest' ⟨left, d₂⟩ hsplit ⟨hleft, hreg₂, hle⟩
      have hb : b.Below d₁.pool.size := hread b (by simp [hsplit])
      exact (addToSum_found hreg₂ hleft (hb.mono hle)).mono fun r h => ⟨h.1, h.2.1, hle.trans h.2.2⟩
    · rw [← hsize]
      exact h.2.2

/-! ## Outlets -/

/-- That the outlets bound so far have buffers of the pool. -/
structure OutletBinding.Found (size : Nat) (b : OutletBinding) : Prop where
  pool : b.pool.Regular
  size : size ≤ b.pool.size
  outlets : ∀ buffer ∈ b.outlets, buffer.Below b.pool.size
  unread : ∀ buffer ∈ b.unread, buffer.Below b.pool.size

theorem bindOutlet_found {u : U} {inlets : Array BufferId} {size : Nat} {b : OutletBinding}
    (hin : ∀ buffer ∈ inlets, buffer.Below size) (hb : b.Found size) (outlet : Nat) :
    Arrives (OutletBinding.Found size) (g.bindOutlet x n u inlets b outlet) := by
  unfold bindOutlet
  dsimp only
  generalize g.fanOut x outlet + (if outlet = 0 then g.ownerFanOut n else 0) = readers
  split
  · obtain ⟨hreg, hout, hle⟩ := hb.pool.acquire (max readers 1)
    refine ⟨hreg, hb.size.trans hle, fun buffer hmem => ?_, fun buffer hmem => ?_⟩
    · rcases Array.mem_push.1 hmem with hmem | rfl
      · exact (hb.outlets buffer hmem).mono hle
      · exact hout
    · dsimp only at hmem
      split at hmem
      · rcases List.mem_append.1 hmem with hmem | hmem
        · exact (hb.unread buffer hmem).mono hle
        · rw [List.mem_singleton.1 hmem]
          exact hout
      · exact (hb.unread buffer hmem).mono hle
  · next inlet _ =>
    have hbuffer : ((inlets[inlet]?).getD .zero).Below b.pool.size := by
      cases hi : inlets[inlet]? with
      | none => exact BufferId.zero_below _
      | some buffer => exact (hin buffer (Array.mem_of_getElem? hi)).mono hb.size
    refine (hb.pool.reserve hbuffer _).bind fun q hq => ⟨hq.1, hb.size.trans (le_of_eq hq.2.symm),
      fun buffer hmem => ?_, fun buffer hmem => (hb.unread buffer hmem).mono (le_of_eq hq.2.symm)⟩
    rcases Array.mem_push.1 hmem with hmem | rfl
    · exact (hb.outlets buffer hmem).mono (le_of_eq hq.2.symm)
    · exact hbuffer.mono (le_of_eq hq.2.symm)

theorem placeUnit_found {u : U} {inlets : Array BufferId} (hd : d.Found (⟨x, inlets⟩ :: fs)) :
    Arrives (fun d' => d'.Found fs) (g.placeUnit x n u inlets d) := by
  have hin : ∀ b ∈ inlets, b.Below d.pool.size := hd.frames _ List.mem_cons_self
  unfold placeUnit
  refine (Outcome.foldlM (fun (_ : List Nat) (b : OutletBinding) => b.Found d.pool.size)
    ⟨hd.pool, le_refl _, by simp, by simp⟩ ?_).bind fun b hb => ?_
  · rintro done outlet rest b - hb
    exact bindOutlet_found hin hb outlet
  have hd₁ : Draft.Found fs { d with pool := b.pool } := hd.tail.of_bindings hb.pool hb.size rfl
  refine (Draft.releaseAll_found hb.pool fun buffer hmem => ?_).bind fun d₂ h₂ => ?_
  · rcases List.mem_append.1 hmem with hmem | hmem
    · exact hb.unread buffer hmem
    · exact (hin buffer (Array.mem_toList_iff.1 hmem)).mono hb.size
  have hsize : b.pool.size = d₂.pool.size := h₂.2.1.symm
  have hd₂ : d₂.Found fs := hd₁.of_bindings h₂.1 (le_of_eq hsize) h₂.2.2
  have hd₃ : (d₂.bind x { inlets, outlets := b.outlets, sources := b.sources }).Found fs := hd₂.bind x
    (fun buffer hmem => (hin buffer hmem).mono (hb.size.trans (le_of_eq hsize)))
    (fun buffer hmem => (hb.outlets buffer hmem).mono (le_of_eq hsize))
  dsimp only
  split
  · exact ⟨hd₃.pool, hd₃.inlets, hd₃.outlets, hd₃.frames⟩
  · exact hd₃

omit [Device U] in
theorem closeContents_found {inlets : Array BufferId} (hd : d.Found (⟨x, inlets⟩ :: fs)) :
    Arrives (fun d' => d'.Found fs) (g.closeContents x inlets d) := by
  have hin : ∀ b ∈ inlets, b.Below d.pool.size := hd.frames _ List.mem_cons_self
  unfold closeContents
  have hout : ∀ b ∈ (Array.range (g.ports x).streamOutlets).map (g.innerOutlet d x),
      b.Below d.pool.size := by
    intro b hb
    obtain ⟨k, -, rfl⟩ := Array.mem_map.1 hb
    unfold innerOutlet
    split
    · exact BufferId.zero_below _
    · split
      · exact Draft.outlet_below hd _ _
      · exact BufferId.zero_below _
  have hd₁ : (d.bind x { d.binding x with
      outlets := (Array.range (g.ports x).streamOutlets).map (g.innerOutlet d x) }).Found fs :=
    hd.tail.bind x (hd.inlets x) hout
  refine (Draft.releaseAll_found hd₁.pool fun b hb => hin b (Array.mem_toList_iff.1 hb)).mono ?_
  exact fun d' h => hd₁.of_bindings h.1 (le_of_eq h.2.1.symm) h.2.2

theorem openContents_found {inlets : Array BufferId} (hd : d.Found (⟨x, inlets⟩ :: fs)) :
    (openContents x inlets d).Found (⟨x, inlets⟩ :: fs) := by
  have hbound : (d.bind x { d.binding x with inlets }).Found (⟨x, inlets⟩ :: fs) :=
    hd.bind x (hd.frames _ List.mem_cons_self) (hd.outlets x)
  exact hbound.mark .filling

/-! ## The whole walk -/

/-- No part of planning gets lost. -/
def foundClient (g : Graph U) : Client g where
  Faulty := (¬ ·.Lost)
  Inv := Draft.Found
  Ready _ _ := True
  ready_advances _ _ := ⟨⟩
  ready_top _ := ⟨⟩
  ready_owner _ _ _ := ⟨⟩
  ready_source _ _ _ := ⟨⟩
  ready_parent _ _ _ := ⟨⟩
  ready_child _ _ _ := ⟨⟩
  ready_later _ _ _ := ⟨⟩
  enter _ hi := (hi.push (by simp)).mark _
  mix _ hi _ _ _ _ := (mixInlet_found hi _).attach.mono fun r ⟨⟨hbelow, hreg, hle⟩, heq⟩ => by
    have hd := hi.of_bindings hreg hle (mixInlet_keeps heq).2.1
    refine hd.tail.push fun b hb => ?_
    rcases Array.mem_push.1 hb with hb | rfl
    · exact hd.frames _ List.mem_cons_self b hb
    · exact hbelow
  unit _ _ _ _ _ hi _ _ _ _ := (placeUnit_found hi).mono fun _ h => h.mark _
  fill _ hi _ _ _ := openContents_found hi
  close _ hi _ _ := (closeContents_found hi).mono fun _ h => h.mark _

omit [Device U] in
/-- Before planning every port is silent. -/
theorem binding_startDraft (g : Graph U) (x : UnitId) :
    g.startDraft.binding x = ((g.node? x).map fun n => Binding.silent n.ports).getD {} := by
  rw [node?_eq]
  simp only [startDraft, Draft.binding, Array.getElem?_map]
  cases g.nodes[x.index]? <;> rfl

omit [Device U] in
theorem found_startDraft (g : Graph U) : g.startDraft.Found [] := by
  have hzero : ∀ x, ∀ b ∈ (g.startDraft.binding x).inlets ++ (g.startDraft.binding x).outlets,
      b = .zero := by
    intro x b hb
    cases hn : g.node? x with
    | none => simp [binding_startDraft, hn] at hb
    | some n =>
      simp only [binding_startDraft, hn, Option.map_some, Option.getD_some, Binding.silent,
        Array.mem_append, Array.mem_replicate] at hb
      exact hb.elim And.right And.right
  refine ⟨Pool.regular_reset _, fun x b hb => ?_, fun x b hb => ?_, by simp⟩
  · rw [hzero x b (Array.mem_append.2 (.inl hb))]
    exact BufferId.zero_below _
  · rw [hzero x b (Array.mem_append.2 (.inr hb))]
    exact BufferId.zero_below _

/-- Planning a sound graph ends, and looks for no buffer that is not there. -/
theorem fullDraft_found (hg : g.Sound) : Arrives (fun d => d.Found []) g.fullDraft :=
  (fullDraft_spec hg (foundClient g) (found_startDraft g)).mono fun _ h => h.2.1

end Graph
end Patchbay
