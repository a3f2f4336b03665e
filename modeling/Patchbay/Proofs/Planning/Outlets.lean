import Patchbay.Proofs.Planning.Ledger

/-!
# Binding the outlets of a unit

When a unit is placed, each of its outlets gets as many readers as there are connections from it, and
the first one also those of the outlet of its subgraph that the unit stands for. These connections
are exactly the ones that become due (`due_place`, `count_fresh`).
-/

namespace Patchbay

variable {U : Type} [Device U]

namespace Graph

variable {g : Graph U} {d d' : Draft} {fs : List Frame} {x : UnitId} {n : Node U} {u : U}

/-! ## Readers -/

omit [Device U]

/-- The readers of an outlet of a unit. -/
def readers (g : Graph U) (x : UnitId) (n : Node U) (o : Nat) : Nat :=
  g.fanOut x o + if o = 0 then g.ownerFanOut n else 0

/-- Whether a connection becomes due when a unit is placed: it leaves the unit, or the outlet of the
subgraph that the unit stands for. -/
def Leaves (g : Graph U) (x : UnitId) (c : Connection) : Prop :=
  g.kindOf c = .stream ∧
    (c.source = x ∨ g.owner? x = some c.source ∧ g.port? x = some (.outlet, c.outlet))

instance (g : Graph U) (x : UnitId) (c : Connection) : Decidable (g.Leaves x c) :=
  inferInstanceAs (Decidable (_ ∧ (_ ∨ _)))

/-- Connections from the first outlets of a node, counted outlet by outlet. -/
theorem sum_fanOut (p : Nat → Bool) (m : Nat) :
    ((List.range m).map fun o => if p o then g.fanOut x o else 0).sum =
      g.connections.countP fun c => c.source = x ∧ c.outlet < m ∧ p c.outlet := by
  induction m with
  | zero => simp
  | succ m ih =>
    have hlast : (if p m then g.fanOut x m else 0) =
        g.connections.countP fun c => c.source = x ∧ c.outlet = m ∧ p m := by
      unfold fanOut outgoing
      rw [← List.countP_eq_length_filter]
      split
      · next h => exact List.countP_congr fun c _ => by simp [h]
      · next h => simp [h]
    rw [List.range_succ, List.map_append, List.sum_append, ih, List.map_singleton,
      List.sum_singleton, hlast, ← countP_or]
    · refine List.countP_congr fun c _ => ?_
      simp only [decide_eq_true_eq, Bool.or_eq_true, Nat.lt_succ_iff_lt_or_eq]
      constructor
      · rintro (⟨h₁, h₂, h₃⟩ | ⟨h₁, rfl, h₃⟩)
        · exact ⟨h₁, .inl h₂, h₃⟩
        · exact ⟨h₁, .inr rfl, h₃⟩
      · rintro ⟨h₁, h₂ | rfl, h₃⟩
        · exact .inl ⟨h₁, h₂, h₃⟩
        · exact .inr ⟨h₁, rfl, h₃⟩
    · intro c hc hc'
      have h₁ := of_decide_eq_true hc
      have h₂ := of_decide_eq_true hc'
      omega

/-- The readers of the outlet that a unit stands for are the stream connections from there. -/
theorem ownerFanOut_eq (hn : g.node? x = some n) :
    g.ownerFanOut n = g.connections.countP fun c => g.kindOf c = .stream ∧
      g.owner? x = some c.source ∧ g.port? x = some (.outlet, c.outlet) := by
  have howner : g.owner? x = n.owner := by simp [owner?, hn]
  have hport : g.port? x = n.port := by simp [port?, hn]
  have hzero : (n.owner = none ∨ ∀ k, n.port ≠ some (.outlet, k)) →
      g.connections.countP (fun c => g.kindOf c = .stream ∧
        g.owner? x = some c.source ∧ g.port? x = some (.outlet, c.outlet)) = 0 := by
    intro h
    refine List.countP_eq_zero.2 fun c _ hc => ?_
    obtain ⟨-, ho, hp⟩ := of_decide_eq_true hc
    rcases h with h | h
    · rw [howner, h] at ho
      cases ho
    · exact h _ (hport ▸ hp)
  rw [ownerFanOut]
  split
  · next o k ho hp =>
    rw [howner, hport, ho, hp]
    split
    · next hk =>
      unfold fanOut outgoing
      rw [← List.countP_eq_length_filter]
      refine List.countP_congr fun c _ => ?_
      simp only [Bool.and_eq_true, beq_iff_eq, decide_eq_true_eq, kindOf_eq_stream,
        Option.some.injEq, Prod.mk.injEq, true_and]
      constructor
      · rintro ⟨rfl, rfl⟩
        exact ⟨hk, rfl, rfl⟩
      · rintro ⟨-, rfl, rfl⟩
        exact ⟨rfl, rfl⟩
    · next hk =>
      symm
      refine List.countP_eq_zero.2 fun c _ hc => ?_
      obtain ⟨h₁, h₂, h₃⟩ := of_decide_eq_true hc
      cases h₂
      cases h₃
      exact hk (outlet_lt_of_kindOf h₁)
  · next h =>
    refine (hzero ?_).symm
    cases ho : n.owner with
    | none => exact .inl rfl
    | some o => exact .inr fun k hk => h o k ho hk

/-- The buffers at the outlets of a unit, each as often as it has readers. -/
def fresh (g : Graph U) (x : UnitId) (n : Node U) (outlets : Array BufferId) (m : Nat) :
    List BufferId :=
  (List.range m).flatMap fun o => List.replicate (g.readers x n o) ((outlets[o]?).getD .zero)

theorem fresh_push (outlets : Array BufferId) (b : BufferId) :
    g.fresh x n (outlets.push b) (outlets.size + 1) =
      g.fresh x n outlets outlets.size ++ List.replicate (g.readers x n outlets.size) b := by
  unfold fresh
  rw [List.range_succ, List.flatMap_append]
  congr 1
  · refine List.flatMap_congr fun o ho => ?_
    rw [Array.getElem?_push, if_neg (by have := List.mem_range.1 ho; omega)]
  · simp

theorem length_fresh (outlets : Array BufferId) (m : Nat) :
    (g.fresh x n outlets m).length = ((List.range m).map (g.readers x n)).sum := by
  simp [fresh, List.length_flatMap]

/-- The readers of all outlets of a unit are the connections that become due. -/
theorem sum_readers (hn : g.node? x = some n) (p : Nat → Bool) :
    ((List.range (g.ports x).streamOutlets).map fun o =>
        if p o then g.readers x n o else 0).sum =
      (g.connections.countP fun c => g.kindOf c = .stream ∧ c.source = x ∧ p c.outlet) +
        if 0 < (g.ports x).streamOutlets ∧ p 0 then
          g.connections.countP fun c => g.kindOf c = .stream ∧
            g.owner? x = some c.source ∧ g.port? x = some (.outlet, c.outlet)
        else 0 := by
  have hsplit : ∀ m, ((List.range m).map fun o => if p o then g.readers x n o else 0).sum =
      ((List.range m).map fun o => if p o then g.fanOut x o else 0).sum +
        if 0 < m ∧ p 0 then g.ownerFanOut n else 0 := by
    intro m
    induction m with
    | zero => simp
    | succ m ih =>
      rw [List.range_succ, List.map_append, List.map_append, List.sum_append, List.sum_append, ih]
      simp only [List.map_singleton, List.sum_singleton, readers]
      by_cases hm : m = 0
      · subst hm
        by_cases hp : p 0 <;> simp [hp]
      · have : 0 < m := by omega
        by_cases hp : p m <;> by_cases hp0 : p 0 <;> simp [hm, hp, hp0, this, Nat.add_right_comm]
  rw [hsplit, sum_fanOut, ownerFanOut_eq hn]
  congr 1
  refine List.countP_congr fun c _ => ?_
  simp only [decide_eq_true_eq, kindOf_eq_stream]
  constructor
  · rintro ⟨rfl, h⟩
    exact ⟨h.1, rfl, h.2⟩
  · rintro ⟨h₁, rfl, h₂⟩
    exact ⟨rfl, h₁, h₂⟩

/-! ## What becomes due -/

/-- The buffer that a connection reads once a unit is placed with some outlets. -/
def bufferOf (x : UnitId) (outlets : Array BufferId) (c : Connection) : BufferId :=
  (outlets[if c.source = x then c.outlet else 0]?).getD .zero

/-- The draft after the innermost node, a unit, has been placed. -/
structure After (g : Graph U) (d d' : Draft) (x : UnitId) (outlets : Array BufferId) : Prop where
  visit : ∀ y, d'.visit y = if y = x then .placed else d.visit y
  binding : ∀ y, y ≠ x → d'.binding y = d.binding y
  outlets : (d'.binding x).outlets = outlets

section Due

variable {inlets outlets : Array BufferId} (hg : g.Sound) (ho : g.Orderly (⟨x, inlets⟩ :: fs) d)
  (hunit : g.isSubgraph x = false) (hv : d.visit x = .binding)
  (hsize : inlets.size = (g.ports x).streamInlets)
include hg ho hunit hv

/-- A connection that becomes due was not due before: neither was its reader bound nor its source
settled. -/
theorem not_due_of_leaves {c : Connection} (hc : c ∈ g.connections) (h : g.Leaves x c) :
    g.dueAt (⟨x, inlets⟩ :: fs) d c = none ∧ ¬ Bound (⟨x, inlets⟩ :: fs) d c := by
  obtain ⟨hk, hleaves⟩ := h
  have hsource : d.visit c.source ≠ .placed := by
    rcases hleaves with rfl | ⟨hown, -⟩
    · simp [hv]
    · intro hp
      have := ho.closed hown hp
      rw [hv] at this
      cases this
  have hunbound : ¬ Bound (⟨x, inlets⟩ :: fs) d c := by
    rintro (h | h | ⟨f, hf, hfx, hlt⟩)
    · exact hsource (ho.sourced c hc hk (.inl h))
    · exact hsource (ho.sourced c hc hk (.inr h))
    · exact hsource (ho.read f hf c hc hk hfx.symm hlt)
  have hbefore : g.settled? d c.source c.outlet = none := by
    rcases hleaves with hcx | ⟨hown, hport⟩
    · rw [hcx, settled?, hunit]
      simp [hv]
    · have hpu := hg.nested.portUnit?_eq_some.2 ⟨hown, hport⟩
      rw [settled?, if_pos (hg.nested.holder hown), hpu]
      simp [hv]
  refine ⟨?_, hunbound⟩
  rw [dueAt, if_pos ⟨hk, hunbound⟩, hbefore]
  rfl

/-- The connections that become due are among those that are not bound, and none of them was due. -/
theorem countP_leaves_le :
    g.connections.countP (g.Leaves x) + (g.due (⟨x, inlets⟩ :: fs) d).length ≤
      g.connections.countP fun c => g.kindOf c = .stream ∧ ¬ Bound (⟨x, inlets⟩ :: fs) d c := by
  have hmem : g.connections.countP (fun c => g.Leaves x c) =
      g.connections.countP fun c => g.Leaves x c ∧ c ∈ g.connections :=
    List.countP_congr fun c hc => by simp [hc]
  rw [due, List.length_filterMap_eq_countP, hmem]
  refine countP_add_le (fun c h => ?_) (fun c h => decide_eq_true ?_) fun c h h' => ?_
  · obtain ⟨hl, hc⟩ := of_decide_eq_true h
    exact decide_eq_true ⟨hl.1, (not_due_of_leaves hg ho hunit hv hc hl).2⟩
  · by_contra hno
    rw [dueAt, if_neg hno] at h
    cases h
  · obtain ⟨hl, hc⟩ := of_decide_eq_true h
    rw [(not_due_of_leaves hg ho hunit hv hc hl).1] at h'
    cases h'

variable (ha : g.After d d' x outlets)
include hsize ha

/-- A connection that becomes due reads the outlet that is bound now. -/
theorem dueAt_of_leaves {c : Connection} (hc : c ∈ g.connections) (h : g.Leaves x c) :
    g.dueAt fs d' c = some (bufferOf x outlets c, [.outlet c.source c.outlet]) := by
  have hunbound := (not_due_of_leaves hg ho hunit hv hc h).2
  obtain ⟨hk, hleaves⟩ := h
  have hunbound' : ¬ Bound fs d' c := by
    have hdx : c.dest ≠ x := by
      intro hdx
      exact hunbound (.inr (.inr ⟨_, List.mem_cons_self, hdx.symm,
        by rw [hsize, ← hdx]; exact hg.wired.streamInlet c hc hk⟩))
    rintro (h | h | ⟨f, hf, hfx, hlt⟩)
    · rw [ha.visit, if_neg hdx] at h
      exact hunbound (.inl h)
    · rw [ha.visit, if_neg hdx] at h
      exact hunbound (.inr (.inl h))
    · exact hunbound (.inr (.inr ⟨f, List.mem_cons_of_mem _ hf, hfx, hlt⟩))
  have hx : d'.visit x = .placed := by simp [ha.visit]
  have hout : ∀ o, d'.outlet x o = (outlets[o]?).getD .zero := fun o => by
    rw [Draft.outlet, ha.outlets]
  have hafter : g.settled? d' c.source c.outlet = some (bufferOf x outlets c) := by
    by_cases hcx : c.source = x
    · rw [hcx, settled?, hunit, bufferOf, if_pos hcx]
      simp [hx, hout]
    · obtain ⟨hown, hport⟩ := hleaves.resolve_left hcx
      have hpu := hg.nested.portUnit?_eq_some.2 ⟨hown, hport⟩
      rw [settled?, if_pos (hg.nested.holder hown), hpu, bufferOf, if_neg hcx]
      simp [hx, hout]
  rw [dueAt, if_pos ⟨hk, hunbound'⟩, hafter]
  rfl

/-- Every other connection is due as it was. -/
theorem dueAt_of_not_leaves {c : Connection} (hc : c ∈ g.connections) (h : ¬ g.Leaves x c) :
    g.dueAt fs d' c = g.dueAt (⟨x, inlets⟩ :: fs) d c := by
  by_cases hk : g.kindOf c = .stream
  · have hnot : ∀ {y o b}, (y ≠ x → g.settled? d y o = b) →
        (c.source = y ∧ c.outlet = o) → g.settled? d c.source c.outlet = b := by
      rintro y o b hy ⟨rfl, rfl⟩
      exact hy fun he => h ⟨hk, .inl he⟩
    have hcx : c.source ≠ x := fun he => h ⟨hk, .inl he⟩
    have hbound : Bound fs d' c ↔ Bound (⟨x, inlets⟩ :: fs) d c := by
      simp only [Bound, ha.visit, List.exists_mem_cons_iff]
      by_cases hd : c.dest = x
      · have := hg.wired.streamInlet c hc hk
        rw [hd, ← hsize] at this
        simp [hd, this]
      · simp [hd, Ne.symm hd]
    have hout : ∀ y, y ≠ x → ∀ o, d'.outlet y o = d.outlet y o := fun y hy o => by
      rw [Draft.outlet, ha.binding y hy, Draft.outlet]
    have hsettled : g.settled? d' c.source c.outlet = g.settled? d c.source c.outlet := by
      unfold settled?
      split
      · cases hpu : g.portUnit? c.source .outlet c.outlet with
        | none => rfl
        | some b =>
          have hbx : b ≠ x := by
            rintro rfl
            obtain ⟨hown, hport⟩ := hg.nested.portUnit?_eq_some.1 hpu
            exact h ⟨hk, .inr ⟨hown, hport⟩⟩
          simp [ha.visit, hbx, hout b hbx]
      · simp [ha.visit, hcx, hout _ hcx]
    simp only [dueAt, hbound, hsettled]
  · simp [dueAt, hk]

/-- What is due after a unit has been placed. -/
theorem due_place :
    (g.due fs d').Perm ((g.connections.filter (g.Leaves x)).map
        (fun c => (bufferOf x outlets c, [.outlet c.source c.outlet])) ++
      g.due (⟨x, inlets⟩ :: fs) d) := by
  have hmap : (g.connections.filter (g.Leaves x)).filterMap (g.dueAt fs d') =
      (g.connections.filter (g.Leaves x)).map
        (fun c => (bufferOf x outlets c, [.outlet c.source c.outlet])) := by
    rw [← List.filterMap_eq_map]
    refine List.filterMap_congr fun c hc => ?_
    obtain ⟨hc, hl⟩ := List.mem_filter.1 hc
    exact dueAt_of_leaves hg ho hunit hv hsize ha hc (of_decide_eq_true hl)
  rw [← hmap]
  refine filterMap_perm (fun c => g.Leaves x c) (fun c hc h => ?_) fun c hc h => ?_
  · exact (not_due_of_leaves hg ho hunit hv hc (of_decide_eq_true h)).1
  · exact dueAt_of_not_leaves hg ho hunit hv hsize ha hc (by simpa using h)

end Due

/-! ## Binding the outlets one by one -/

variable [Device U]

/-- What is known of the first outlets of a unit when the rest are still to be bound, and before, `base`
was held of the pool `start`. -/
structure BoundOutlets (g : Graph U) (x : UnitId) (n : Node U) (u : U) (inlets : Array BufferId)
    (start : Pool) (base : List BufferId) (m : Nat) (b : OutletBinding) : Prop where
  grown : start.Extends b.pool
  size : b.outlets.size = m
  sourcesSize : b.sources.size = m
  sources : ∀ o < m, b.sources[o]? = some (Device.source u o)
  balances : b.pool.Balances (g.fresh x n b.outlets m ++ (b.unread ++ base))
  unread : ∀ buffer ∈ b.unread, buffer ∉ base
  forward : ∀ o < m, ∀ j, Device.source u o = .forward j →
    b.outlets[o]? = some ((inlets[j]?).getD .zero)
  /-- A buffer that the unit writes is not held for anything else. -/
  pooled : ∀ o < m, Device.source u o = .pooled → ∃ i, b.outlets[o]? = some (.pooled i) ∧
    .pooled i ∉ base ∧ .pooled i ∈ g.fresh x n b.outlets m ++ b.unread
  once : ∀ o < m, ∀ o' < m, Device.source u o = .pooled → Device.source u o' = .pooled →
    b.outlets[o]? = b.outlets[o']? → o = o'

namespace BoundOutlets

variable {u : U} {inlets : Array BufferId} {start : Pool} {base : List BufferId} {m : Nat}
  {b : OutletBinding}

/-- One more outlet has been bound. -/
theorem push (h : g.BoundOutlets x n u inlets start base m b) {pool : Pool} {buffer : BufferId}
    {unread : List BufferId} (hext : b.pool.Extends pool)
    (hbal : pool.Balances
      (List.replicate (g.readers x n m) buffer ++ (g.fresh x n b.outlets m ++ (unread ++ base))))
    (hunread : unread = b.unread ∨ unread = b.unread ++ [buffer] ∧ buffer ∉ base)
    (hforward : ∀ j, Device.source u m = .forward j → buffer = (inlets[j]?).getD .zero)
    (hpooled : Device.source u m = .pooled → ∃ i, buffer = .pooled i ∧
      buffer ∉ g.fresh x n b.outlets m ++ (b.unread ++ base) ∧
      (0 < g.readers x n m ∨ buffer ∈ unread)) :
    g.BoundOutlets x n u inlets start base (m + 1)
      { pool, outlets := b.outlets.push buffer, sources := b.sources.push (Device.source u m),
        unread } := by
  have hfresh : g.fresh x n (b.outlets.push buffer) (m + 1) =
      g.fresh x n b.outlets m ++ List.replicate (g.readers x n m) buffer := by
    rw [← h.size]
    exact fresh_push _ _
  have hold : ∀ o < m, (b.outlets.push buffer)[o]? = b.outlets[o]? := fun o ho => by
    rw [Array.getElem?_push, if_neg (by rw [h.size]; omega)]
  have hnew : (b.outlets.push buffer)[m]? = some buffer := by
    rw [Array.getElem?_push, if_pos h.size.symm]
  have hlast : ∀ {o}, o < m + 1 → o = m ∨ o < m := fun ho => by omega
  have hsub : ∀ a ∈ b.unread, a ∈ unread := by
    rcases hunread with rfl | ⟨rfl, -⟩
    · exact fun a ha => ha
    · exact fun a ha => List.mem_append_left _ ha
  have hapart : Device.source u m = .pooled → ∀ o < m, Device.source u o = .pooled →
      b.outlets[o]? ≠ some buffer := by
    intro hs o ho hso he
    obtain ⟨i, hi, -, hmem⟩ := h.pooled o ho hso
    obtain ⟨-, -, hnot, -⟩ := hpooled hs
    rw [hi] at he
    cases he
    refine hnot ?_
    rw [← List.append_assoc]
    exact List.mem_append_left _ hmem
  constructor
  · exact h.grown.trans hext
  · simp [h.size]
  · simp [h.sourcesSize]
  · intro o ho
    rw [Array.getElem?_push, h.sourcesSize]
    rcases hlast ho with rfl | ho
    · simp
    · rw [if_neg (by omega)]
      exact h.sources o ho
  · refine hbal.perm ?_
    rw [hfresh]
    simp only [← List.append_assoc]
    exact (List.perm_append_comm.append_right _).append_right _
  · intro a ha
    rcases hunread with rfl | ⟨rfl, hnot⟩
    · exact h.unread a ha
    · rcases List.mem_append.1 ha with ha | ha
      · exact h.unread a ha
      · rw [List.mem_singleton.1 ha]
        exact hnot
  · intro o ho j hs
    rcases hlast ho with rfl | ho
    · rw [hnew, hforward j hs]
    · rw [hold o ho]
      exact h.forward o ho j hs
  · intro o ho hs
    rcases hlast ho with rfl | ho
    · obtain ⟨i, rfl, hnot, hread⟩ := hpooled hs
      refine ⟨i, hnew, fun hb => hnot ?_, ?_⟩
      · exact List.mem_append_right _ (List.mem_append_right _ hb)
      · rw [hfresh]
        rcases hread with hr | hr
        · exact List.mem_append_left _ (List.mem_append_right _
            (List.mem_replicate.2 ⟨Nat.ne_of_gt hr, rfl⟩))
        · exact List.mem_append_right _ hr
    · obtain ⟨i, hi, hnot, hmem⟩ := h.pooled o ho hs
      refine ⟨i, (hold o ho).trans hi, hnot, ?_⟩
      rw [hfresh]
      rcases List.mem_append.1 hmem with hmem | hmem
      · exact List.mem_append_left _ (List.mem_append_left _ hmem)
      · exact List.mem_append_right _ (hsub _ hmem)
  · intro o ho o' ho' hs hs' he
    rcases hlast ho with rfl | ho <;> rcases hlast ho' with rfl | ho'
    · rfl
    · rw [hnew, hold o' ho'] at he
      exact absurd he.symm (hapart hs o' ho' hs')
    · rw [hnew, hold o ho] at he
      exact absurd he (hapart hs' o ho hs)
    · rw [hold o ho, hold o' ho'] at he
      exact h.once o ho o' ho' hs hs' he

/-- Binding the next outlet meets no fault as long as the readers can be counted. -/
theorem bindOutlet (h : g.BoundOutlets x n u inlets start base m b) {total : Nat}
    (hinlets : ∀ {j : Nat} {a : BufferId}, inlets[j]? = some a → a ∈ base)
    (htotal : ((List.range (m + 1)).map (g.readers x n)).sum ≤ total) (hfit : total < halfWordSize)
    (hcount : ∀ a ≠ .zero, base.count a + total < halfWordSize) :
    Outcome (fun _ => False) (g.BoundOutlets x n u inlets start base (m + 1))
      (g.bindOutlet x n u inlets b m) := by
  have hreaders : g.readers x n m + ((List.range m).map (g.readers x n)).sum ≤ total := by
    rw [List.range_succ, List.map_append, List.sum_append] at htotal
    simp only [List.map_singleton, List.sum_singleton] at htotal
    omega
  have hfold : g.fanOut x m + (if m = 0 then g.ownerFanOut n else 0) = g.readers x n m := rfl
  cases hs : Device.source u m with
  | pooled =>
    have hone : 1 < halfWordSize := by decide
    obtain ⟨i, pool, hacq, hnot, hbal, hext⟩ := Pool.acquire_spec h.balances
      (n := max (g.readers x n m) 1) (by omega) (by omega)
    have heq : g.bindOutlet x n u inlets b m = .ok
        { pool, outlets := b.outlets.push (.pooled i), sources := b.sources.push .pooled,
          unread := if g.readers x n m = 0 then b.unread ++ [.pooled i] else b.unread } := by
      simp only [Graph.bindOutlet, hs, hfold, hacq]
    rw [heq, ← hs]
    by_cases hr : g.readers x n m = 0
    · rw [if_pos hr]
      refine h.push hext ?_ (.inr ⟨rfl, fun hb => hnot ?_⟩) (by simp [hs])
        fun _ => ⟨i, rfl, hnot, .inr (by simp)⟩
      · rw [hr] at hbal ⊢
        refine hbal.perm ?_
        simp only [Nat.zero_max, List.replicate_one, List.replicate_zero, List.nil_append,
          List.singleton_append]
        refine List.perm_middle.symm.trans (List.Perm.append_left _ ?_)
        rw [List.append_assoc]
        exact List.perm_middle.symm
      · exact List.mem_append_right _ (List.mem_append_right _ hb)
    · rw [if_neg hr]
      rw [Nat.max_eq_left (by omega)] at hbal
      exact h.push hext hbal (.inl rfl) (by simp [hs]) fun _ => ⟨i, rfl, hnot, .inl (by omega)⟩
  | forward j =>
    generalize ha : (inlets[j]?).getD .zero = a
    have hmem : a ≠ .zero → a ∈ base := by
      intro hne
      cases hj : inlets[j]? with
      | none => simp [hj] at ha; exact absurd ha.symm hne
      | some a' =>
        rw [hj] at ha
        cases ha
        exact hinlets hj
    obtain ⟨pool, hres, hbal, hext, -⟩ := Pool.reserve_spec h.balances (b := a) (n := g.readers x n m)
      (fun _ hne => List.mem_append_right _ (List.mem_append_right _ (hmem hne))) fun hne => by
        have h₁ : (g.fresh x n b.outlets m).count a ≤ ((List.range m).map (g.readers x n)).sum := by
          rw [← length_fresh b.outlets m]
          exact List.count_le_length
        have h₂ : b.unread.count a = 0 := List.count_eq_zero.2 fun h' => h.unread a h' (hmem hne)
        have := hcount a hne
        simp only [List.count_append]
        omega
    have heq : g.bindOutlet x n u inlets b m = .ok
        { pool, outlets := b.outlets.push a, sources := b.sources.push (.forward j),
          unread := b.unread } := by
      simp only [Graph.bindOutlet, hs, hfold, ha, hres]
      rfl
    rw [heq, ← hs]
    refine h.push hext hbal (.inl rfl) (fun j' hj' => ?_) (by simp [hs])
    rw [hs] at hj'
    cases hj'
    exact ha.symm

omit [Device U] in
theorem sum_readers_mono {m m' : Nat} (h : m ≤ m') :
    ((List.range m).map (g.readers x n)).sum ≤ ((List.range m').map (g.readers x n)).sum := by
  induction h with
  | refl => exact Nat.le_refl _
  | step _ ih =>
    rw [List.range_succ, List.map_append, List.sum_append]
    omega

/-- Binding all outlets of a unit. -/
theorem all {pool : Pool} (hbal : pool.Balances base) {total : Nat} (m : Nat)
    (hinlets : ∀ {j : Nat} {a : BufferId}, inlets[j]? = some a → a ∈ base)
    (htotal : ((List.range m).map (g.readers x n)).sum ≤ total) (hfit : total < halfWordSize)
    (hcount : ∀ a ≠ .zero, base.count a + total < halfWordSize) :
    Outcome (fun _ => False) (g.BoundOutlets x n u inlets pool base m)
      ((List.range m).foldlM (g.bindOutlet x n u inlets) { pool }) := by
  have hstart : g.BoundOutlets x n u inlets pool base 0 { pool } :=
    ⟨.refl _, rfl, rfl, by simp, by simpa [fresh] using hbal, by simp, by simp, by simp, by simp⟩
  refine (Outcome.foldlM (fun (done : List Nat) (b : OutletBinding) =>
    g.BoundOutlets x n u inlets pool base done.length b) hstart ?_).mono fun b h => by simpa using h
  rintro done o rest b hl h
  have hlt : done.length < m := by
    have := congrArg List.length hl
    simp only [List.length_range, List.length_append, List.length_cons] at this
    omega
  have ho : o = done.length := by
    have := congrArg (·[done.length]?) hl
    simpa [List.getElem?_range hlt] using this.symm
  subst ho
  rw [List.length_append, List.length_singleton]
  exact h.bindOutlet hinlets ((sum_readers_mono hlt).trans htotal) hfit hcount

end BoundOutlets

omit [Device U] in
/-- A unit has no more readers than connections become due. -/
theorem sum_readers_le (hg : g.Nested) (hn : g.node? x = some n) :
    ((List.range (g.ports x).streamOutlets).map (g.readers x n)).sum ≤
      g.connections.countP (g.Leaves x) := by
  have h := sum_readers hn fun _ => true
  simp only [if_true, and_true] at h
  rw [h]
  have hsplit : g.connections.countP (fun c => g.Leaves x c) =
      (g.connections.countP fun c => g.kindOf c = .stream ∧ c.source = x) +
        g.connections.countP fun c => g.kindOf c = .stream ∧
          g.owner? x = some c.source ∧ g.port? x = some (.outlet, c.outlet) := by
    rw [← countP_or]
    · refine List.countP_congr fun c _ => ?_
      rw [Bool.or_eq_true, decide_eq_true_eq, decide_eq_true_eq, decide_eq_true_eq]
      exact and_or_left
    · intro c hc hc'
      obtain ⟨-, rfl⟩ := of_decide_eq_true hc
      have := hg.older (of_decide_eq_true hc').2.1
      omega
  rw [hsplit]
  split <;> omega

omit [Device U] in
/-- The buffers at the outlets of a unit are held as often by the connections that become due as
their readers say. -/
theorem count_fresh (hg : g.Nested) (hn : g.node? x = some n) {outlets : Array BufferId}
    (hsize : outlets.size = (g.ports x).streamOutlets) {b : BufferId} (hb : b ≠ .zero) :
    (g.fresh x n outlets (g.ports x).streamOutlets).count b =
      ((g.connections.filter (g.Leaves x)).map (bufferOf x outlets)).count b := by
  have hleft : (g.fresh x n outlets (g.ports x).streamOutlets).count b =
      ((List.range (g.ports x).streamOutlets).map fun o =>
        if ((outlets[o]?).getD .zero == b) = true then g.readers x n o else 0).sum := by
    simp only [fresh, List.count_flatMap, Function.comp_def, List.count_replicate]
  have hright : ((g.connections.filter (g.Leaves x)).map (bufferOf x outlets)).count b =
      (g.connections.countP fun c => g.kindOf c = .stream ∧ c.source = x ∧
        ((outlets[c.outlet]?).getD .zero == b) = true) +
      g.connections.countP fun c => (g.kindOf c = .stream ∧ g.owner? x = some c.source ∧
        g.port? x = some (.outlet, c.outlet)) ∧ ((outlets[0]?).getD .zero == b) = true := by
    rw [List.count, List.countP_map, List.countP_filter, ← countP_or]
    · refine List.countP_congr fun c _ => ?_
      by_cases hc : c.source = x
      · have : g.owner? x ≠ some c.source := fun ho => by
          have := hg.older ho
          rw [hc] at this
          omega
        rw [hc] at this
        simp [Leaves, bufferOf, hc, this, and_comm]
      · simp [Leaves, bufferOf, hc, and_comm]
    · intro c hc hc'
      obtain ⟨-, rfl, -⟩ := of_decide_eq_true hc
      have := hg.older (of_decide_eq_true hc').1.2.1
      omega
  rw [hleft, hright, sum_readers hn]
  congr 1
  split
  · next h => simp [h.2]
  · next h =>
    symm
    refine List.countP_eq_zero.2 fun c _ hc => h ⟨?_, (of_decide_eq_true hc).2⟩
    have hz := (of_decide_eq_true hc).2
    by_contra hpos
    rw [Array.getElem?_eq_none (by omega)] at hz
    exact hb (beq_iff_eq.1 hz).symm

end Graph
end Patchbay
