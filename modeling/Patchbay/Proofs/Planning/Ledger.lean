import Patchbay.Proofs.Graph.Signals
import Patchbay.Proofs.Planning.Visiting
import Patchbay.Proofs.Pool

/-!
# The ledger of a plan

While a graph is planned, every reader of a buffer is an **entry** of the ledger: a buffer together
with the ports whose sum it is to hold. A stream connection has an entry from the moment its source
is settled until the inlet that it leads to is bound; a bound inlet has one until its node is placed.

`Ledger` says that the pool counts exactly these entries, and that each buffer holds what its entries
say. What it means to hold something is left open (`Meaning`): the books are right whatever the
buffers are used for.
-/

namespace Patchbay

variable {U : Type} [Device U]

/-- Whether a unit writes a buffer at one of its outlets. -/
def Binding.Owns (b : Binding) (o : Nat) (buffer : BufferId) : Prop :=
  b.outlets[o]? = some buffer ∧ b.sources[o]? = some .pooled

/-- Whether a step adds up two buffers out of `size` into a third. -/
def Step.Mixes (size : Nat) : Step → Prop
  | .unit _ => False
  | .sum left right out => left.Below size ∧ right.Below size ∧ out.Below size ∧
      out ≠ .zero ∧ out ≠ left ∧ out ≠ right

theorem Step.Mixes.mono {size size' : Nat} {s : Step} (h : s.Mixes size) (hle : size ≤ size') :
    s.Mixes size' := by
  cases s with
  | unit x => exact h
  | sum left right out => exact ⟨h.1.mono hle, h.2.1.mono hle, h.2.2.1.mono hle, h.2.2.2⟩

/-- Only sums have been added to the steps. -/
structure Draft.Grows (d d' : Draft) : Prop where
  sums : ∃ sums, d'.steps.toList = d.steps.toList ++ sums ∧ ∀ s ∈ sums, s.Mixes d'.pool.size
  pool : d.pool.Extends d'.pool

namespace Draft.Grows

theorem of_steps {d d' : Draft} (h : d'.steps = d.steps) (hp : d.pool.Extends d'.pool) :
    d.Grows d' := ⟨⟨[], by simp [h], by simp⟩, hp⟩

theorem trans {d d' d'' : Draft} (h : d.Grows d') (h' : d'.Grows d'') : d.Grows d'' := by
  obtain ⟨sums, hsums, hmixes⟩ := h.sums
  obtain ⟨sums', hsums', hmixes'⟩ := h'.sums
  refine ⟨⟨sums ++ sums', by rw [hsums', hsums, List.append_assoc], fun s hs => ?_⟩,
    h.pool.trans h'.pool⟩
  rcases List.mem_append.1 hs with hs | hs
  · exact (hmixes s hs).mono h'.pool.size_le
  · exact hmixes' s hs

end Draft.Grows

namespace Graph

/-- What placing a unit makes of a draft. -/
structure Places (g : Graph U) (d d' : Draft) (x : UnitId) (n : Node U) : Prop where
  node : g.node? x = some n
  unplaced : d.visit x ≠ .placed
  placed : d'.visit x = .placed
  visits : ∀ y, y ≠ x → d'.visit y = d.visit y
  bindings : ∀ y, y ≠ x → d'.binding y = d.binding y
  steps : d'.steps = if n.body.computes then d.steps.push (.unit x) else d.steps

/-- Units that are placed stay as they are. -/
def Keeps (g : Graph U) (d d' : Draft) : Prop :=
  ∀ x, d.visit x = .placed → g.isSubgraph x = false →
    d'.visit x = .placed ∧ d'.binding x = d.binding x

omit [Device U] in
theorem Keeps.trans {g : Graph U} {d d' d'' : Draft} (h : g.Keeps d d') (h' : g.Keeps d' d'') :
    g.Keeps d d'' := by
  intro x hx hunit
  obtain ⟨hv, hb⟩ := h x hx hunit
  obtain ⟨hv', hb'⟩ := h' x hv hunit
  exact ⟨hv', hb'.trans hb⟩

theorem Places.keeps {g : Graph U} {d d' : Draft} {x : UnitId} {n : Node U}
    (h : g.Places d d' x n) : g.Keeps d d' := by
  intro y hy _
  have hne : y ≠ x := by
    rintro rfl
    exact h.unplaced hy
  exact ⟨(h.visits y hne).trans hy, h.bindings y hne⟩

/-- What it means that a buffer holds the sum of some ports after the steps of a draft. -/
structure Meaning (g : Graph U) where
  Holds : Draft → BufferId → List StreamPort → Prop
  silent : ∀ {d : Draft}, Holds d .zero []
  /-- Only steps, and the bindings of units that are placed, matter. -/
  keep : ∀ {d d' : Draft} {b : BufferId} {ports : List StreamPort}, Holds d b ports →
    d'.steps = d.steps → g.Keeps d d' → Holds d' b ports
  inlet : ∀ {d : Draft} {b : BufferId} {x : UnitId} {i : Nat}, Holds d b (g.feeds x i) →
    Holds d b [.inlet x i]
  sum : ∀ {d : Draft} {left right : BufferId} {i : Nat} {ports : List StreamPort}
    {port : StreamPort}, ports ≠ [] → Holds d left ports → Holds d right [port] →
    Holds { d with steps := d.steps.push (.sum left right (.pooled i)) } (.pooled i)
      (ports ++ [port])
  sumOther : ∀ {d : Draft} {b left right : BufferId} {i : Nat} {ports : List StreamPort},
    b ≠ .pooled i → Holds d b ports →
    Holds { d with steps := d.steps.push (.sum left right (.pooled i)) } b ports
  own : ∀ {d d' : Draft} {x : UnitId} {n : Node U} {u : U} {o i : Nat}, g.Places d d' x n →
    n.body = .device u → Device.source u o = .pooled → o < (g.ports x).streamOutlets →
    (d'.binding x).Owns o (.pooled i) →
    (∀ o', (d'.binding x).Owns o' (.pooled i) → o' = o) → Holds d' (.pooled i) [.outlet x o]
  ownOther : ∀ {d d' : Draft} {x : UnitId} {n : Node U} {u : U} {b : BufferId}
    {ports : List StreamPort}, g.Places d d' x n → n.body = .device u →
    (∀ o, ¬ (d'.binding x).Owns o b) → Holds d b ports → Holds d' b ports
  forward : ∀ {d : Draft} {x : UnitId} {n : Node U} {u : U} {o j : Nat} {b : BufferId},
    g.node? x = some n → n.body = .device u → Device.source u o = .forward j →
    j < (g.ports x).streamInlets → Holds d b [.inlet x j] → Holds d b [.outlet x o]
  lost : ∀ {d : Draft} {x : UnitId} {n : Node U} {u : U} {o j : Nat},
    g.node? x = some n → n.body = .device u → Device.source u o = .forward j →
    (g.ports x).streamInlets ≤ j → Holds d .zero [.outlet x o]
  through : ∀ {d : Draft} {x b : UnitId} {k : Nat} {buffer : BufferId}, g.isSubgraph x = true →
    g.portUnit? x .outlet k = some b → 0 < (g.ports b).streamOutlets →
    Holds d buffer [.outlet b 0] → Holds d buffer [.outlet x k]
  closed : ∀ {d : Draft} {x : UnitId} {k : Nat}, g.isSubgraph x = true →
    (∀ b, g.portUnit? x .outlet k = some b → (g.ports b).streamOutlets = 0) →
    Holds d .zero [.outlet x k]

/-- The books can be kept without saying what a buffer holds. -/
def Meaning.trivial (g : Graph U) : g.Meaning where
  Holds _ _ _ := True
  silent := ⟨⟩
  keep _ _ _ := ⟨⟩
  inlet _ := ⟨⟩
  sum _ _ _ := ⟨⟩
  sumOther _ _ := ⟨⟩
  own _ _ _ _ _ _ := ⟨⟩
  ownOther _ _ _ _ := ⟨⟩
  forward _ _ _ _ _ := ⟨⟩
  lost _ _ _ _ := ⟨⟩
  through _ _ _ _ := ⟨⟩
  closed _ _ := ⟨⟩

/-! ## Entries -/

/-- A reader of a buffer, and the ports whose sum it is to read there. -/
abbrev Entry := BufferId × List StreamPort

omit [Device U]

/-- Whether the inlet that a connection leads to has been bound. -/
def Bound (fs : List Frame) (d : Draft) (c : Connection) : Prop :=
  d.visit c.dest = .filling ∨ d.visit c.dest = .placed ∨
    ∃ f ∈ fs, f.node = c.dest ∧ c.inlet < f.inlets.size

instance (fs : List Frame) (d : Draft) (c : Connection) : Decidable (Bound fs d c) :=
  inferInstanceAs (Decidable (_ ∨ _ ∨ _))

/-- The buffer at a stream outlet, once it is known. That of a subgraph is known as soon as the unit
behind it has been placed. -/
def settled? (g : Graph U) (d : Draft) (x : UnitId) (o : Nat) : Option BufferId :=
  if g.isSubgraph x then
    match g.portUnit? x .outlet o with
    | some b => if d.visit b = .placed then some (d.outlet b 0) else none
    | none => some .zero
  else if d.visit x = .placed then some (d.outlet x o) else none

/-- The entry of a connection. -/
def dueAt (g : Graph U) (fs : List Frame) (d : Draft) (c : Connection) : Option Entry :=
  if g.kindOf c = .stream ∧ ¬ Bound fs d c then
    (g.settled? d c.source c.outlet).map fun b => (b, [.outlet c.source c.outlet])
  else none

/-- The entries of the connections whose readers have not been bound. -/
def due (g : Graph U) (fs : List Frame) (d : Draft) : List Entry :=
  g.connections.filterMap (g.dueAt fs d)

/-- The entries of the inlets that are bound so far. -/
def Frame.entries (f : Frame) : List Entry :=
  f.inlets.toList.zipIdx.map fun p => (p.1, [.inlet f.node p.2])

/-- The number of inlets that read a buffer of the pool. -/
def Frame.weight (f : Frame) : Nat := f.inlets.toList.countP (· ≠ .zero)

theorem Frame.map_entries (f : Frame) : f.entries.map Prod.fst = f.inlets.toList := by
  rw [Frame.entries, List.map_map]
  exact List.zipIdx_map_fst 0 f.inlets.toList

theorem Frame.entries_push (x : UnitId) (inlets : Array BufferId) (b : BufferId) :
    (⟨x, inlets.push b⟩ : Frame).entries =
      (⟨x, inlets⟩ : Frame).entries ++ [(b, [.inlet x inlets.size])] := by
  simp [Frame.entries, List.zipIdx_append]

/-- The entries of the ledger. -/
def entries (g : Graph U) (fs : List Frame) (d : Draft) : List Entry :=
  g.due fs d ++ fs.flatMap Frame.entries

/-- The stream connections that lead to the inlets of a frame. -/
def arrivals (g : Graph U) (f : Frame) : Nat :=
  g.connections.countP fun c => g.kindOf c = .stream ∧ c.dest = f.node ∧ c.inlet < f.inlets.size

/-- That the ledger is right in the middle of the nodes on the stack. -/
structure Ledger {g : Graph U} [Device U] (M : g.Meaning) (fs : List Frame) (d : Draft) : Prop where
  balances : d.pool.Balances ((g.entries fs d).map Prod.fst)
  holds : ∀ e ∈ g.entries fs d, M.Holds d e.1 e.2
  /-- A subgraph that is placed has taken over the outlets of the units behind its own. -/
  taken : ∀ x k, g.isSubgraph x = true → d.visit x = .placed → k < (g.ports x).streamOutlets →
    g.settled? d x k = some (d.outlet x k)
  /-- At each node, one inlet at most reads the pool without a connection: one that is fed from
  outside its subgraph. -/
  light : ∀ f ∈ fs, f.weight ≤ g.arrivals f + if f.inlets.size = 0 then 0 else 1

/-! ## How many entries there can be -/

theorem countP_or {α : Type} {l : List α} {p q : α → Bool} (h : ∀ a, p a → ¬ q a) :
    l.countP (fun a => p a || q a) = l.countP p + l.countP q := by
  induction l with
  | nil => simp
  | cons a l ih =>
    have := h a
    simp only [List.countP_cons, ih]
    cases hp : p a <;> cases hq : q a <;> simp_all <;> omega

theorem countP_add_le {α : Type} {l : List α} {p q r : α → Bool} (hp : ∀ a, p a → r a)
    (hq : ∀ a, q a → r a) (hpq : ∀ a, p a → ¬ q a) : l.countP p + l.countP q ≤ l.countP r := by
  rw [← countP_or hpq]
  refine List.countP_mono_left fun a _ h => ?_
  rcases Bool.or_eq_true_iff.1 h with h | h
  · exact hp a h
  · exact hq a h

/-- If some members of a list count for one function only, and the others for both alike, then these
members are the difference. -/
theorem filterMap_perm {α β : Type} {l : List α} {f f' : α → Option β} (p : α → Bool)
    (hp : ∀ a ∈ l, p a → f a = none) (hnp : ∀ a ∈ l, ¬ p a → f' a = f a) :
    (l.filterMap f').Perm ((l.filter p).filterMap f' ++ l.filterMap f) := by
  induction l with
  | nil => simp
  | cons a l ih =>
    have ih := ih (fun a' h => hp a' (List.mem_cons_of_mem _ h))
      fun a' h => hnp a' (List.mem_cons_of_mem _ h)
    by_cases h : p a
    · rw [List.filter_cons, if_pos h, List.filterMap_cons_none (hp a List.mem_cons_self h)]
      cases hf : f' a with
      | none =>
        rw [List.filterMap_cons_none hf, List.filterMap_cons_none hf]
        exact ih
      | some b =>
        rw [List.filterMap_cons_some hf, List.filterMap_cons_some hf]
        exact ih.cons b
    · rw [List.filter_cons, if_neg h]
      have hsame := hnp a List.mem_cons_self h
      cases hf : f a with
      | none =>
        rw [List.filterMap_cons_none hf, List.filterMap_cons_none (hsame.trans hf)]
        exact ih
      | some b =>
        rw [List.filterMap_cons_some hf, List.filterMap_cons_some (hsame.trans hf)]
        exact (ih.cons b).trans List.perm_middle.symm

variable {g : Graph U} {d d' : Draft} {fs : List Frame}

theorem sum_arrivals_le (hnodup : (fs.map Frame.node).Nodup) :
    (fs.map g.arrivals).sum ≤ g.connections.countP fun c =>
      g.kindOf c = .stream ∧ ∃ f ∈ fs, f.node = c.dest ∧ c.inlet < f.inlets.size := by
  induction fs with
  | nil => simp
  | cons f fs ih =>
    rw [List.map_cons, List.nodup_cons] at hnodup
    rw [List.map_cons, List.sum_cons]
    refine (Nat.add_le_add_left (ih hnodup.2) _).trans (countP_add_le ?_ ?_ ?_)
    · intro c hc
      obtain ⟨hk, hd, hi⟩ : g.kindOf c = .stream ∧ c.dest = f.node ∧ c.inlet < f.inlets.size := by
        simpa using hc
      exact decide_eq_true ⟨hk, f, List.mem_cons_self, hd.symm, hi⟩
    · intro c hc
      obtain ⟨hk, f', hf', hd, hi⟩ : g.kindOf c = .stream ∧
          ∃ f ∈ fs, f.node = c.dest ∧ c.inlet < f.inlets.size := by simpa using hc
      exact decide_eq_true ⟨hk, f', List.mem_cons_of_mem _ hf', hd, hi⟩
    · intro c hc hc'
      obtain ⟨-, hd, -⟩ : g.kindOf c = .stream ∧ c.dest = f.node ∧ c.inlet < f.inlets.size := by
        simpa using hc
      obtain ⟨-, f', hf', hd', -⟩ : g.kindOf c = .stream ∧
          ∃ f ∈ fs, f.node = c.dest ∧ c.inlet < f.inlets.size := by simpa using hc'
      exact hnodup.1 (List.mem_map.2 ⟨f', hf', hd'.trans hd⟩)

/-- Connections that still have to be read, and inlets that read the pool, are not more than the
connections and nodes that there are. -/
theorem readers_le (hnodup : (fs.map Frame.node).Nodup)
    (hlight : ∀ f ∈ fs, f.weight ≤ g.arrivals f + if f.inlets.size = 0 then 0 else 1) :
    (g.connections.countP fun c => g.kindOf c = .stream ∧ ¬ Bound fs d c) +
      ((fs.flatMap Frame.entries).map Prod.fst).countP (· ≠ .zero) ≤
    g.connections.length + fs.countP fun f => f.inlets.size ≠ 0 := by
  have hweight : ((fs.flatMap Frame.entries).map Prod.fst).countP (· ≠ .zero) =
      (fs.map Frame.weight).sum := by
    rw [List.map_flatMap, List.countP_flatMap]
    congr 1
    refine List.map_congr_left fun f _ => ?_
    simp only [Function.comp_apply, Frame.map_entries, Frame.weight]
  have hsum : (fs.map Frame.weight).sum ≤
      (fs.map g.arrivals).sum + fs.countP fun f => f.inlets.size ≠ 0 := by
    clear hnodup hweight
    induction fs with
    | nil => simp
    | cons f fs ih =>
      have h₁ := hlight f List.mem_cons_self
      have h₂ := ih fun f' hf' => hlight f' (List.mem_cons_of_mem _ hf')
      rw [List.map_cons, List.map_cons, List.sum_cons, List.sum_cons, List.countP_cons]
      by_cases h : f.inlets.size = 0
      · rw [if_pos h] at h₁
        rw [if_neg (by simpa using h)]
        omega
      · rw [if_neg h] at h₁
        rw [if_pos (decide_eq_true h)]
        omega
  have hdisjoint : (g.connections.countP fun c => g.kindOf c = .stream ∧ ¬ Bound fs d c) +
      (g.connections.countP fun c =>
        g.kindOf c = .stream ∧ ∃ f ∈ fs, f.node = c.dest ∧ c.inlet < f.inlets.size) ≤
      g.connections.countP fun _ => true := by
    refine countP_add_le (fun _ _ => rfl) (fun _ _ => rfl) fun c hc hc' => ?_
    have h₁ := of_decide_eq_true hc
    have h₂ := of_decide_eq_true hc'
    exact h₁.2 (.inr (.inr h₂.2))
  have := sum_arrivals_le (g := g) hnodup
  rw [List.countP_true] at hdisjoint
  omega

theorem length_due_le :
    (g.due fs d).length ≤
      g.connections.countP fun c => g.kindOf c = .stream ∧ ¬ Bound fs d c := by
  rw [due, List.length_filterMap_eq_countP]
  refine List.countP_mono_left fun c _ hc => decide_eq_true ?_
  by_contra h
  simp [dueAt, h] at hc

theorem length_frames_le (h : g.Orderly fs d) : fs.length ≤ g.nodes.size := by
  have hnodup : ((fs.map Frame.node).map UnitId.index).Nodup :=
    h.nodup.map fun x y he => by cases x; cases y; simp_all
  have hsub : (fs.map Frame.node).map UnitId.index ⊆ List.range g.nodes.size := by
    intro i hi
    obtain ⟨x, hx, rfl⟩ := List.mem_map.1 hi
    obtain ⟨f, hf, rfl⟩ := List.mem_map.1 hx
    exact List.mem_range.2 (lt_size_of_contains (h.framed f hf).1)
  simpa using (hnodup.subperm hsub).length_le

theorem count_le_countP {l : List BufferId} {b : BufferId} (hb : b ≠ .zero) :
    l.count b ≤ l.countP (· ≠ .zero) :=
  List.countP_mono_left fun a _ h => by
    have : a = b := by simpa using h
    simpa [this] using hb

/-! ## When the ledger stays the same -/

/-- Whether the outlet of a node is settled depends on units that are placed. -/
theorem settled?_congr
    (h : ∀ y, g.isSubgraph y = false → (d'.visit y = .placed ↔ d.visit y = .placed) ∧
      (d.visit y = .placed → ∀ o, d'.outlet y o = d.outlet y o))
    (hg : g.Nested) (x : UnitId) (o : Nat) : g.settled? d' x o = g.settled? d x o := by
  unfold settled?
  split
  · split
    · next b hb =>
      have hsub := hg.portUnit (hg.portUnit?_eq_some.1 hb).2
      by_cases hv : d.visit b = .placed
      · rw [if_pos hv, if_pos ((h b hsub).1.2 hv), (h b hsub).2 hv]
      · rw [if_neg hv, if_neg (mt (h b hsub).1.1 hv)]
    · rfl
  · next hsub =>
    have hsub : g.isSubgraph x = false := by simpa using hsub
    by_cases hv : d.visit x = .placed
    · rw [if_pos hv, if_pos ((h x hsub).1.2 hv), (h x hsub).2 hv]
    · rw [if_neg hv, if_neg (mt (h x hsub).1.1 hv)]

/-- If the same connections are bound, and the same outlets settled, the same readers are due. -/
theorem due_congr {fs' : List Frame}
    (hbound : ∀ c ∈ g.connections, g.kindOf c = .stream → (Bound fs' d' c ↔ Bound fs d c))
    (hsettled : ∀ c ∈ g.connections, g.kindOf c = .stream →
      g.settled? d' c.source c.outlet = g.settled? d c.source c.outlet) :
    g.due fs' d' = g.due fs d := by
  refine List.filterMap_congr fun c hc => ?_
  by_cases hk : g.kindOf c = .stream
  · simp [dueAt, hk, hbound c hc hk, hsettled c hc hk]
  · simp [dueAt, hk]

namespace Ledger

variable [Device U] {M : g.Meaning} {x : UnitId} {inlets : Array BufferId}

/-- Entering a node changes no entry. -/
theorem enter (hl : Ledger M fs d) (hg : g.Sound) (he : g.Entering fs d x) :
    Ledger M (⟨x, #[]⟩ :: fs) (d.mark x .binding) := by
  have hvisit := Draft.visit_mark (he.orderly.lt_visits he.contains) .binding
  have hplaced : ∀ y, (d.mark x .binding).visit y = .placed ↔ d.visit y = .placed := by
    intro y
    rw [hvisit]
    split
    · next h => simp [h, he.unvisited]
    · rfl
  have hsettled : ∀ y o, g.settled? (d.mark x .binding) y o = g.settled? d y o :=
    settled?_congr (fun y _ => ⟨hplaced y, fun _ _ => rfl⟩) hg.nested
  have hdue : g.due (⟨x, #[]⟩ :: fs) (d.mark x .binding) = g.due fs d := by
    refine due_congr (fun c _ _ => ?_) fun c _ _ => hsettled _ _
    simp only [Bound, hvisit]
    by_cases h : c.dest = x
    · simp [h, he.unvisited]
    · simp [h, Ne.symm h]
  have hentries : g.entries (⟨x, #[]⟩ :: fs) (d.mark x .binding) = g.entries fs d := by
    simp [entries, hdue, Frame.entries]
  refine ⟨hentries ▸ hl.balances, fun e hmem => ?_, fun y k hy hv hk => ?_, fun f hf => ?_⟩
  · rw [hentries] at hmem
    exact M.keep (hl.holds e hmem) rfl fun y hy _ => ⟨(hplaced y).2 hy, rfl⟩
  · rw [hsettled]
    exact hl.taken y k hy ((hplaced y).1 hv) hk
  · rcases List.mem_cons.1 hf with rfl | hf
    · simp [Frame.weight]
    · exact hl.light f hf

/-- Opening a subgraph changes no entry: all its inlets are bound. -/
theorem fill (hl : Ledger M (⟨x, inlets⟩ :: fs) d) (hg : g.Sound)
    (ho : g.Orderly (⟨x, inlets⟩ :: fs) d) (hv : d.visit x = .binding)
    (hsub : g.isSubgraph x = true) (hsize : inlets.size = (g.ports x).streamInlets) :
    Ledger M (⟨x, inlets⟩ :: fs) (openContents x inlets d) := by
  obtain ⟨hc, -⟩ := ho.framed _ List.mem_cons_self
  have hvisit : ∀ y, (openContents x inlets d).visit y = if y = x then .filling else d.visit y :=
    fun y => by rw [openContents, Draft.visit_mark (by exact ho.lt_visits hc)]; rfl
  have hbinding : ∀ y, (openContents x inlets d).binding y =
      if y = x then { d.binding x with inlets } else d.binding y :=
    fun y => Draft.binding_bind (ho.lt_bindings hc) _ y
  have hplaced : ∀ y, (openContents x inlets d).visit y = .placed ↔ d.visit y = .placed := by
    intro y
    rw [hvisit]
    split
    · next h => simp [h, hv]
    · rfl
  have houtlet : ∀ y o, (openContents x inlets d).outlet y o = d.outlet y o := by
    intro y o
    rw [Draft.outlet, hbinding]
    split
    · next h => rw [h, Draft.outlet]
    · rfl
  have hsettled : ∀ y o, g.settled? (openContents x inlets d) y o = g.settled? d y o :=
    settled?_congr (fun y _ => ⟨hplaced y, fun _ o => houtlet y o⟩) hg.nested
  have hdue : g.due (⟨x, inlets⟩ :: fs) (openContents x inlets d) =
      g.due (⟨x, inlets⟩ :: fs) d := by
    refine due_congr (fun c hc hk => ?_) fun c _ _ => hsettled _ _
    simp only [Bound, hvisit]
    by_cases h : c.dest = x
    · have := hg.wired.streamInlet c hc hk
      rw [h] at this
      simp [h, hsize, this]
    · simp [h]
  have hentries : g.entries (⟨x, inlets⟩ :: fs) (openContents x inlets d) =
      g.entries (⟨x, inlets⟩ :: fs) d := by rw [entries, entries, hdue]
  refine ⟨hentries ▸ hl.balances, fun e hmem => ?_, fun y k hy hvy hk => ?_, hl.light⟩
  · rw [hentries] at hmem
    refine M.keep (hl.holds e hmem) rfl fun y hy hsy => ⟨(hplaced y).2 hy, ?_⟩
    rw [hbinding, if_neg]
    rintro rfl
    rw [hsub] at hsy
    cases hsy
  · rw [hsettled, houtlet]
    exact hl.taken y k hy ((hplaced y).1 hvy) hk

/-- Closing a subgraph gives its inlets back. -/
theorem close (hl : Ledger M (⟨x, inlets⟩ :: fs) d) (hg : g.Sound)
    (ho : g.Orderly (⟨x, inlets⟩ :: fs) d) (hv : d.visit x = .filling)
    (hinside : ∀ c, g.owner? c = some x → d.visit c = .placed) :
    Outcome (fun _ => False) (fun d' => Ledger M fs (d'.mark x .placed) ∧ d.Grows d')
      (g.closeContents x inlets d) := by
  obtain ⟨hc, -⟩ := ho.framed _ List.mem_cons_self
  obtain ⟨hsub, hsize, -⟩ := ho.filling _ List.mem_cons_self hv
  have hsub : g.isSubgraph x = true := hsub
  generalize houts : (Array.range (g.ports x).streamOutlets).map (g.innerOutlet d x) = outlets
  have houtlets : ∀ k < (g.ports x).streamOutlets,
      (outlets[k]?).getD .zero = g.innerOutlet d x k := by
    intro k hk
    simp [← houts, hk]
  -- what the draft will be, up to its pool
  generalize hd₁ : d.bind x { d.binding x with outlets } = d₁
  have hvisit₁ : ∀ y, d₁.visit y = d.visit y := fun y => by rw [← hd₁, Draft.visit_bind]
  have hbinding₁ : ∀ y, d₁.binding y = if y = x then { d.binding x with outlets } else d.binding y :=
    fun y => by rw [← hd₁, Draft.binding_bind (ho.lt_bindings hc)]
  have hlt₁ : x.index < d₁.visits.size := by
    rw [← hd₁]
    exact ho.lt_visits hc
  have hpool₁ : d₁.pool = d.pool := by rw [← hd₁]; rfl
  have hsteps₁ : d₁.steps = d.steps := by rw [← hd₁]; rfl
  have hvisit : ∀ y, (d₁.mark x .placed).visit y = if y = x then .placed else d.visit y := by
    intro y
    rw [Draft.visit_mark hlt₁, hvisit₁]
  have hdevice : ∀ y, g.isSubgraph y = false → y ≠ x := by
    rintro y hy rfl
    rw [hsub] at hy
    cases hy
  have houtlet : ∀ y, y ≠ x → ∀ o, (d₁.mark x .placed).outlet y o = d.outlet y o := by
    intro y hy o
    rw [Draft.outlet, Draft.binding_mark, hbinding₁, if_neg hy, Draft.outlet]
  have hsettled : ∀ y o, g.settled? (d₁.mark x .placed) y o = g.settled? d y o := by
    refine settled?_congr (fun y hy => ⟨?_, fun _ => houtlet y (hdevice y hy)⟩) hg.nested
    rw [hvisit, if_neg (hdevice y hy)]
  have hdue : g.due fs (d₁.mark x .placed) = g.due (⟨x, inlets⟩ :: fs) d := by
    refine due_congr (fun c hc' hk => ?_) fun c _ _ => hsettled _ _
    simp only [Bound, hvisit]
    by_cases h : c.dest = x
    · simp [h, hv]
    · simp [h, Ne.symm h]
  have hperm : (g.entries (⟨x, inlets⟩ :: fs) d).Perm
      ((⟨x, inlets⟩ : Frame).entries ++ g.entries fs (d₁.mark x .placed)) := by
    simp only [entries, hdue, List.flatMap_cons]
    exact List.perm_append_comm_assoc ..
  have hbal := hl.balances.perm (hperm.map Prod.fst)
  rw [List.map_append, Frame.map_entries, ← hpool₁] at hbal
  obtain ⟨p, hp, hbal', hext, -⟩ := Pool.releaseAll_spec inlets.toList hbal
  have heq : g.closeContents x inlets d = .ok { d₁ with pool := p } := by
    have : g.closeContents x inlets d = d₁.releaseAll inlets.toList := by
      rw [← hd₁, ← houts]
      rfl
    rw [this, Draft.releaseAll, hp]
    rfl
  rw [heq]
  rw [hpool₁] at hext
  refine ⟨⟨hbal', fun e hmem => ?_, fun y k hy hvy hk => ?_, fun f hf =>
    hl.light f (List.mem_cons_of_mem _ hf)⟩, .of_steps hsteps₁ hext⟩
  · have hmem' : e ∈ g.entries (⟨x, inlets⟩ :: fs) d :=
      hperm.mem_iff.2 (List.mem_append_right _ hmem)
    refine M.keep (hl.holds e hmem') hsteps₁ fun y hy hsy => ?_
    have hyx := hdevice y hsy
    exact ⟨(hvisit y).trans ((if_neg hyx).trans hy), (hbinding₁ y).trans (if_neg hyx)⟩
  · show g.settled? (d₁.mark x .placed) y k = some ((d₁.mark x .placed).outlet y k)
    rw [hsettled]
    by_cases hyx : y = x
    · subst hyx
      have hout : (d₁.mark y .placed).outlet y k = g.innerOutlet d y k := by
        rw [Draft.outlet, Draft.binding_mark, hbinding₁, if_pos rfl]
        exact houtlets k hk
      rw [hout, settled?, if_pos hsub, innerOutlet]
      cases hb : g.portUnit? y .outlet k with
      | none => rfl
      | some b => simp [hinside b (hg.nested.portUnit?_eq_some.1 hb).1]
    · rw [houtlet y hyx]
      exact hl.taken y k hy (((hvisit y).trans (if_neg hyx)).symm.trans hvy) hk

/-- A chain of sums reads its buffers one by one, and ends in a buffer that holds them all. -/
theorem foldlM_addToSum (M : g.Meaning) (rest : List (BufferId × StreamPort)) : ∀ {d : Draft}
    {left : BufferId} {ports : List StreamPort} {others : List BufferId}, ports ≠ [] →
    d.pool.Balances (left :: (rest.map Prod.fst ++ others)) → M.Holds d left ports →
    (∀ e ∈ rest, M.Holds d e.1 [e.2]) →
    Outcome (fun _ => False)
      (fun r => r.2.pool.Balances (r.1 :: others) ∧ M.Holds r.2 r.1 (ports ++ rest.map Prod.snd) ∧
        (∀ b ports', b = .zero ∨ b ∈ others → M.Holds d b ports' → M.Holds r.2 b ports') ∧
        d.Grows r.2)
      ((rest.map Prod.fst).foldlM addToSum (left, d)) := by
  induction rest with
  | nil =>
    intro d left ports others _ hbal hleft _
    exact ⟨by simpa using hbal, by simpa using hleft, fun b ports' _ h => h,
      .of_steps rfl (.refl _)⟩
  | cons e rest ih =>
    intro d left ports others hne hbal hleft hrest
    obtain ⟨i, p, hacq, hfresh, hbal₁, hext⟩ :=
      Pool.acquire_spec hbal (n := 1) (by decide) (by decide)
    have hperm : (List.replicate 1 (BufferId.pooled i) ++
        (left :: ((e :: rest).map Prod.fst ++ others))).Perm
        ([left, e.1] ++ (.pooled i :: (rest.map Prod.fst ++ others))) := by
      simp only [List.replicate_one, List.map_cons, List.cons_append, List.nil_append]
      exact (List.Perm.swap ..).trans ((List.Perm.swap ..).cons _)
    have hbal₁ := hbal₁.perm hperm
    obtain ⟨p₂, hrel, hbal₂, hext₂, hsize₂⟩ := Pool.releaseAll_spec [left, e.1] hbal₁
    let d₂ : Draft := { d with pool := p₂, steps := d.steps.push (.sum left e.1 (.pooled i)) }
    have heq : addToSum (left, d) e.1 = .ok (.pooled i, d₂) := by
      simp only [addToSum, hacq, Draft.releaseAll, hrel]
      rfl
    have hne' : ∀ b, b = .zero ∨ b ∈ left :: ((e :: rest).map Prod.fst ++ others) →
        b ≠ .pooled i := by
      rintro b (rfl | hb) he
      · cases he
      · exact hfresh (he ▸ hb)
    have hmixes : (Step.sum left e.1 (.pooled i)).Mixes p₂.size := by
      rw [hsize₂]
      exact ⟨hbal₁.below (by simp), hbal₁.below (by simp), hbal₁.below (by simp), by simp,
        (hne' left (.inr (by simp))).symm, (hne' e.1 (.inr (by simp))).symm⟩
    have hgrows : d.Grows d₂ :=
      ⟨⟨[.sum left e.1 (.pooled i)], by simp [d₂], by simpa using hmixes⟩,
        hext.trans hext₂⟩
    have hother : ∀ b ports', b = .zero ∨ b ∈ left :: ((e :: rest).map Prod.fst ++ others) →
        M.Holds d b ports' → M.Holds d₂ b ports' := fun b ports' hb h =>
      M.keep (d := { d with steps := _ }) (M.sumOther (hne' b hb) h) rfl fun x hx _ => ⟨hx, rfl⟩
    have hsum : M.Holds d₂ (.pooled i) (ports ++ [e.2]) :=
      M.keep (M.sum hne hleft (hrest e List.mem_cons_self)) rfl fun x hx _ => ⟨hx, rfl⟩
    rw [List.map_cons (f := Prod.fst), List.foldlM_cons, heq]
    refine (ih (by simp) hbal₂ hsum fun e' he' => hother _ _ (.inr ?_)
      (hrest e' (List.mem_cons_of_mem _ he'))).mono ?_
    · exact List.mem_cons_of_mem _ (List.mem_append_left _
        (List.mem_map_of_mem (List.mem_cons_of_mem _ he')))
    · rintro r ⟨hbal', hholds, hkeep, hgrows'⟩
      refine ⟨hbal', by simpa using hholds, fun b ports' hb h => hkeep b ports' hb ?_,
        hgrows.trans hgrows'⟩
      exact hother b ports' (hb.imp_right fun hb =>
        List.mem_cons_of_mem _ (List.mem_append_right _ hb)) h

/-- What arrives from outside the subgraph gets one more reader. -/
theorem boundaryFeed_spec {n : Node U} (hl : Ledger M (⟨x, inlets⟩ :: fs) d) (hg : g.Sound)
    (hfit : g.nodes.size + g.connections.length < halfWordSize)
    (ho : g.Orderly (⟨x, inlets⟩ :: fs) d) (hn : g.node? x = some n) (hv : d.visit x = .binding) :
    ∃ (feed : List (BufferId × StreamPort)) (p : Pool),
      boundaryFeed d n inlets.size = .ok (feed.map Prod.fst, { d with pool := p }) ∧
      feed.map Prod.snd = g.boundary x inlets.size ∧ (feed ≠ [] → inlets.size = 0) ∧
      p.Balances (feed.map Prod.fst ++ (g.entries (⟨x, inlets⟩ :: fs) d).map Prod.fst) ∧
      d.pool.Extends p ∧ ∀ e ∈ feed, M.Holds d e.1 [e.2] := by
  have howner : g.owner? x = n.owner := by simp [owner?, hn]
  have hport : g.port? x = n.port := by simp [port?, hn]
  have hnone : boundaryFeed d n inlets.size = .ok ([], d) → g.boundary x inlets.size = [] →
      ∃ (feed : List (BufferId × StreamPort)) (p : Pool),
        boundaryFeed d n inlets.size = .ok (feed.map Prod.fst, { d with pool := p }) ∧
        feed.map Prod.snd = g.boundary x inlets.size ∧ (feed ≠ [] → inlets.size = 0) ∧
        p.Balances (feed.map Prod.fst ++ (g.entries (⟨x, inlets⟩ :: fs) d).map Prod.fst) ∧
        d.pool.Extends p ∧ ∀ e ∈ feed, M.Holds d e.1 [e.2] := fun h h' =>
    ⟨[], d.pool, h, by simp [h'], by simp, by simpa using hl.balances, .refl _, by simp⟩
  cases hno : n.owner with
  | none => exact hnone (by simp [boundaryFeed, hno]) (by simp [boundary, howner, hno])
  | some o =>
    rcases hnp : n.port with _ | ⟨side, k⟩
    · exact hnone (by simp [boundaryFeed, hno, hnp]) (by simp [boundary, howner, hport, hno, hnp])
    · cases side with
      | outlet =>
        exact hnone (by simp [boundaryFeed, hno, hnp]) (by simp [boundary, howner, hport, hno, hnp])
      | inlet =>
        by_cases hi : inlets.size = 0
        · -- the owner is being filled, and its frame holds what arrives at its inlets
          have hox : g.owner? x = some o := howner.trans hno
          have hfill : d.visit o = .filling := by
            rcases ho.fed hox (hport.trans hnp) (by simp [hv]) with h | h
            · exact h
            · have := ho.closed hox h
              rw [hv] at this
              cases this
          have hoc := contains_of_isSubgraph (hg.nested.holder hox)
          obtain ⟨f, hf, hfo⟩ := List.mem_map.1 ((ho.busy hoc).1 (.inr hfill))
          obtain ⟨-, hfsize, hfin⟩ := ho.filling f hf (hfo ▸ hfill)
          rw [hfo] at hfsize hfin
          cases hk : f.inlets[k]? with
          | none =>
            have hge : f.inlets.size ≤ k := Array.getElem?_eq_none_iff.1 hk
            refine hnone (by simp [boundaryFeed, hno, hnp, hi, hfin, hk]) ?_
            have : ¬ k < (g.ports o).streamInlets := by omega
            simp [boundary, howner, hport, hno, hnp, this]
          | some b =>
            have hlt : k < (g.ports o).streamInlets := by
              rw [← hfsize]
              exact (Array.getElem?_eq_some_iff.1 hk).1
            have hentry : (b, [StreamPort.inlet o k]) ∈ g.entries (⟨x, inlets⟩ :: fs) d := by
              refine List.mem_append_right _ (List.mem_flatMap.2 ⟨f, hf, ?_⟩)
              refine List.mem_map.2 ⟨(b, k), ?_, by rw [hfo]⟩
              rw [List.mem_zipIdx_iff_getElem?]
              simpa using hk
            have hcount : b ≠ .zero →
                ((g.entries (⟨x, inlets⟩ :: fs) d).map Prod.fst).count b + 1 < halfWordSize := by
              intro hb
              have h₁ := readers_le (d := d) ho.nodup hl.light
              have h₂ : (g.due (⟨x, inlets⟩ :: fs) d).length ≤ g.connections.countP fun c =>
                  g.kindOf c = .stream ∧ ¬ Bound (⟨x, inlets⟩ :: fs) d c := length_due_le
              have h₃ := length_frames_le ho
              have h₄ : ((⟨x, inlets⟩ : Frame) :: fs).countP (fun f => f.inlets.size ≠ 0) ≤
                  fs.length := by
                rw [List.countP_cons, if_neg (by simpa using hi), Nat.add_zero]
                exact List.countP_le_length
              have h₅ := count_le_countP
                (l := (((⟨x, inlets⟩ : Frame) :: fs).flatMap Frame.entries).map Prod.fst) hb
              have h₆ : ((g.due (⟨x, inlets⟩ :: fs) d).map Prod.fst).count b ≤
                  (g.due (⟨x, inlets⟩ :: fs) d).length := by
                simpa using List.count_le_length (a := b)
                  (l := (g.due (⟨x, inlets⟩ :: fs) d).map Prod.fst)
              rw [entries, List.map_append, List.count_append]
              rw [List.length_cons] at h₃
              omega
            obtain ⟨p, hp, hbal, hext, -⟩ := Pool.reserve_spec hl.balances (n := 1)
              (fun _ _ => List.mem_map_of_mem hentry) hcount
            refine ⟨[(b, .inlet o k)], p, ?_, ?_, fun _ => hi, by simpa using hbal,
              hext, ?_⟩
            · simp [boundaryFeed, hno, hnp, hi, hfin, hk, hp, bind, Except.bind, pure, Except.pure]
            · simp [boundary, howner, hport, hno, hnp, hi, hlt]
            · simpa using hl.holds _ hentry
        · exact hnone (by simp [boundaryFeed, hno, hnp, hi])
            (by simp [boundary, howner, hport, hno, hnp, hi])

/-- The entries of the connections to an inlet are those that are no longer due once it is bound. -/
theorem due_push (hl : Ledger M (⟨x, inlets⟩ :: fs) d) (hv : d.visit x = .binding)
    (ho : g.Orderly (⟨x, inlets⟩ :: fs) d)
    (hsources : ∀ c ∈ g.streamSources x inlets.size, d.visit c.source = .placed) (b : BufferId) :
    (g.due (⟨x, inlets⟩ :: fs) d).Perm
      ((g.streamSources x inlets.size).map
          (fun c => (d.outlet c.source c.outlet, [.outlet c.source c.outlet])) ++
        g.due (⟨x, inlets.push b⟩ :: fs) d) := by
  have hnot : ∀ {f}, f ∈ fs → f.node ≠ x := by
    intro f hf he
    have := ho.nodup
    rw [List.map_cons, List.nodup_cons] at this
    exact this.1 (List.mem_map.2 ⟨f, hf, he⟩)
  have hbound : ∀ c : Connection, Bound (⟨x, inlets.push b⟩ :: fs) d c ↔
      Bound (⟨x, inlets⟩ :: fs) d c ∨ c.dest = x ∧ c.inlet = inlets.size := by
    intro c
    simp only [Bound, List.exists_mem_cons_iff, Array.size_push]
    by_cases h : c.dest = x
    · have hno : (∃ f ∈ fs, f.node = x ∧ c.inlet < f.inlets.size) ↔ False :=
        iff_false_intro fun ⟨f, hf, hfx, _⟩ => hnot hf hfx
      simp only [h, hv, hno, or_false, true_and, reduceCtorEq, false_or]
      omega
    · simp [h, Ne.symm h]
  have hat : ∀ c ∈ g.connections, g.kindOf c = .stream → c.dest = x → c.inlet = inlets.size →
      g.dueAt (⟨x, inlets⟩ :: fs) d c =
        some (d.outlet c.source c.outlet, [.outlet c.source c.outlet]) := by
    intro c hc hk hd hi
    have hplaced := hsources c (mem_streamSources.2 ⟨hc, hk, hd, hi⟩)
    have hunbound : ¬ Bound (⟨x, inlets⟩ :: fs) d c := by
      rintro (h | h | ⟨f, hf, hfx, hlt⟩)
      · rw [hd, hv] at h
        cases h
      · rw [hd, hv] at h
        cases h
      · rcases List.mem_cons.1 hf with rfl | hf
        · have : c.inlet < inlets.size := hlt
          omega
        · exact hnot hf (hfx.trans hd)
    have hsettled : g.settled? d c.source c.outlet = some (d.outlet c.source c.outlet) := by
      by_cases hsub : g.isSubgraph c.source = true
      · exact hl.taken _ _ hsub hplaced (outlet_lt_of_kindOf hk)
      · rw [settled?, if_neg hsub, if_pos hplaced]
    rw [dueAt, if_pos ⟨hk, hunbound⟩, hsettled]
    rfl
  have hsources' : (g.streamSources x inlets.size).filterMap (g.dueAt (⟨x, inlets⟩ :: fs) d) =
      (g.streamSources x inlets.size).map
        (fun c => (d.outlet c.source c.outlet, [StreamPort.outlet c.source c.outlet])) := by
    rw [← List.filterMap_eq_map]
    refine List.filterMap_congr fun c hc => ?_
    obtain ⟨hc, hk, hd, hi⟩ := mem_streamSources.1 hc
    exact hat c hc hk hd hi
  rw [← hsources']
  refine filterMap_perm (fun c => c.dest == x && c.inlet == inlets.size && g.kindOf c == .stream)
    (fun c _ h => ?_) fun c _ h => ?_
  · rw [dueAt, if_neg]
    have h : (c.dest = x ∧ c.inlet = inlets.size) ∧ g.kindOf c = .stream := by simpa using h
    exact fun h' => h'.2 ((hbound c).2 (.inr h.1))
  · by_cases hk : g.kindOf c = .stream
    · have : ¬ (c.dest = x ∧ c.inlet = inlets.size) := by simpa [hk] using h
      simp only [dueAt, hbound c, this, or_false]
    · simp [dueAt, hk]

/-- Binding an inlet: what it reads has been settled, and is given back for the one buffer that holds
the sum. -/
theorem mix {n : Node U} (hl : Ledger M (⟨x, inlets⟩ :: fs) d) (hg : g.Sound)
    (hfit : g.nodes.size + g.connections.length < halfWordSize)
    (ho : g.Orderly (⟨x, inlets⟩ :: fs) d) (hn : g.node? x = some n) (hv : d.visit x = .binding)
    (hsources : ∀ c ∈ g.streamSources x inlets.size, d.visit c.source = .placed) :
    Outcome (fun _ => False)
      (fun r => Ledger M (⟨x, inlets.push r.1⟩ :: fs) r.2 ∧ d.Grows r.2)
      (g.mixInlet x n d inlets.size) := by
  obtain ⟨feed, p, hfeed, hports, hfirst, hbal, hext, hholds⟩ := hl.boundaryFeed_spec hg hfit ho hn hv
  -- the entries that the inlet reads, and those that stay
  let read := (g.streamSources x inlets.size).map fun c =>
    (d.outlet c.source c.outlet, StreamPort.outlet c.source c.outlet)
  let base := g.due (⟨x, inlets.push .zero⟩ :: fs) d ++
    ((⟨x, inlets⟩ : Frame) :: fs).flatMap Frame.entries
  have hperm : (g.entries (⟨x, inlets⟩ :: fs) d).Perm
      (read.map (fun e => (e.1, [e.2])) ++ base) := by
    have := hl.due_push hv ho hsources .zero
    simp only [entries, base, read, List.map_map, Function.comp_def]
    rw [← List.append_assoc]
    exact this.append_right _
  have hread : ∀ e ∈ read, M.Holds d e.1 [e.2] := fun e he => hl.holds (e.1, [e.2])
    (hperm.mem_iff.2 (List.mem_append_left _ (List.mem_map.2 ⟨e, he, rfl⟩)))
  have hbase : ∀ e ∈ base, M.Holds d e.1 e.2 := fun e he => hl.holds e
    (hperm.mem_iff.2 (List.mem_append_right _ he))
  have hbal' : p.Balances ((feed ++ read).map Prod.fst ++ base.map Prod.fst) := by
    refine hbal.perm ?_
    rw [List.map_append, List.append_assoc]
    refine List.Perm.append_left _ ?_
    simpa [List.map_map, Function.comp_def] using hperm.map Prod.fst
  have hall : ∀ e ∈ feed ++ read, M.Holds d e.1 [e.2] := fun e he =>
    (List.mem_append.1 he).elim (hholds e) (hread e)
  have hfeeds : (feed ++ read).map Prod.snd = g.feeds x inlets.size := by
    simp [feeds, hports, read]
  -- it is enough to know the sum, and that it disturbs nothing
  suffices hsum : Outcome (fun _ => False)
      (fun r => r.2.pool.Balances (r.1 :: base.map Prod.fst) ∧
        M.Holds r.2 r.1 (g.feeds x inlets.size) ∧
        (∀ e ∈ base, M.Holds r.2 e.1 e.2) ∧ (feed ++ read = [] → r.1 = .zero) ∧ d.Grows r.2)
      (g.mixInlet x n d inlets.size) by
    refine hsum.attach.mono ?_
    rintro ⟨b, d'⟩ ⟨⟨hbal₁, hb, hkeep, hzero, hgrows⟩, heq⟩
    obtain ⟨hvisits, hbindings, -⟩ := mixInlet_keeps heq
    dsimp only at hbal₁ hb hkeep hzero hvisits hbindings ⊢
    have hvisit : ∀ y, d'.visit y = d.visit y := fun y => by simp [Draft.visit, hvisits]
    have houtlet : ∀ y o, d'.outlet y o = d.outlet y o := fun y o => by
      simp [Draft.outlet, Draft.binding, hbindings]
    have hsettled : ∀ y o, g.settled? d' y o = g.settled? d y o :=
      settled?_congr (fun y _ => ⟨by rw [hvisit], fun _ => houtlet y⟩) hg.nested
    have hdue : g.due (⟨x, inlets.push b⟩ :: fs) d' = g.due (⟨x, inlets.push .zero⟩ :: fs) d :=
      due_congr (fun c _ _ => by simp [Bound, hvisit]) fun c _ _ => hsettled _ _
    have hperm' : (g.entries (⟨x, inlets.push b⟩ :: fs) d').Perm
        ((b, [.inlet x inlets.size]) :: base) := by
      simp only [entries, hdue, base, List.flatMap_cons, Frame.entries_push, List.append_assoc,
        List.singleton_append]
      rw [← List.append_assoc, ← List.append_assoc]
      exact List.perm_middle
    refine ⟨⟨hbal₁.perm (hperm'.map Prod.fst).symm, fun e he => ?_, fun y k hy hvy hk => ?_,
      fun f hf => ?_⟩, hgrows⟩
    · rcases List.mem_cons.1 (hperm'.mem_iff.1 he) with rfl | he
      · exact M.inlet hb
      · exact hkeep e he
    · rw [hsettled, houtlet]
      exact hl.taken y k hy (by rw [← hvisit, hvy]) hk
    · rcases List.mem_cons.1 hf with rfl | hf
      · have hold := hl.light _ List.mem_cons_self
        have harr : g.arrivals ⟨x, inlets.push b⟩ =
            g.arrivals ⟨x, inlets⟩ + (g.streamSources x inlets.size).length := by
          unfold arrivals streamSources
          rw [← List.countP_eq_length_filter, ← countP_or]
          · refine List.countP_congr fun c _ => ?_
            simp only [Array.size_push, Nat.lt_succ_iff_lt_or_eq, decide_eq_true_eq,
              Bool.or_eq_true, Bool.and_eq_true, beq_iff_eq]
            tauto
          · intro c hc hc'
            simp only [decide_eq_true_eq, Bool.and_eq_true, beq_iff_eq] at hc hc'
            omega
        have hw : (⟨x, inlets.push b⟩ : Frame).weight =
            (⟨x, inlets⟩ : Frame).weight + if b = .zero then 0 else 1 := by
          simp only [Frame.weight, Array.toList_push, List.countP_append, List.countP_singleton]
          by_cases hbz : b = .zero <;> simp [hbz]
        have hlen : read.length = (g.streamSources x inlets.size).length := by simp [read]
        rw [hw, harr]
        simp only [Array.size_push, Nat.add_one_ne_zero, if_false]
        by_cases hbz : b = .zero
        · rw [if_pos hbz]
          dsimp only at hold
          split at hold <;> omega
        · rw [if_neg hbz]
          have hne := mt hzero hbz
          by_cases hsize : inlets.size = 0
          · dsimp only at hold
            rw [if_pos hsize] at hold
            omega
          · -- only the first inlet is fed from outside, so a connection leads to this one
            have hfeed' : feed = [] := by
              by_contra h
              exact hsize (hfirst h)
            have hpos : read.length ≠ 0 := fun h => hne (by
              simp [hfeed', List.length_eq_zero_iff.1 h])
            dsimp only at hold
            rw [if_neg hsize] at hold
            omega
      · exact hl.light f (List.mem_cons_of_mem _ hf)
  have hbuffers : feed.map Prod.fst ++ (g.streamSources x inlets.size).map
      (fun c => d.outlet c.source c.outlet) = (feed ++ read).map Prod.fst := by
    simp [read, List.map_map, Function.comp_def]
  unfold mixInlet
  rw [hfeed]
  simp only [bind, Except.bind]
  have houtlet : ∀ y o, ({ d with pool := p } : Draft).outlet y o = d.outlet y o := fun _ _ => rfl
  simp only [houtlet, hbuffers]
  have hkeep : ∀ {b : BufferId} {ports : List StreamPort}, M.Holds d b ports →
      M.Holds { d with pool := p } b ports := fun h => M.keep h rfl fun x hx _ => ⟨hx, rfl⟩
  cases hlist : feed ++ read with
  | nil =>
    rw [hlist] at hbal' hfeeds
    refine ⟨?_, ?_, fun e he => hkeep (hbase e he), fun _ => rfl, .of_steps rfl hext⟩
    · exact hbal'.congr fun i => by simp
    · rw [← hfeeds]
      exact M.silent
  | cons e rest =>
    rw [hlist] at hbal' hfeeds hall
    have hbal₂ : ({ d with pool := p } : Draft).pool.Balances
        (e.1 :: (rest.map Prod.fst ++ base.map Prod.fst)) := by simpa using hbal'
    refine (foldlM_addToSum M rest (List.cons_ne_nil e.2 []) hbal₂
      (hkeep (hall e List.mem_cons_self)) fun e' he' =>
        hkeep (hall e' (List.mem_cons_of_mem _ he'))).mono ?_
    · rintro r ⟨hbal₁, hsum, hothers, hgrows⟩
      have hstart : d.Grows { d with pool := p } := .of_steps rfl hext
      refine ⟨hbal₁, ?_, fun e' he' => ?_, by simp, hstart.trans hgrows⟩
      · rw [← hfeeds]
        simpa using hsum
      · exact hothers _ _ (.inr (List.mem_map_of_mem he')) (hkeep (hbase e' he'))

end Ledger
end Graph
end Patchbay
