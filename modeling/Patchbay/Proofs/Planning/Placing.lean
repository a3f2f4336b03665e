import Patchbay.Proofs.Planning.Outlets

/-!
# Placing a unit

`Fits` says how a unit is bound so that it can compute its block: it writes buffers of its own, and
none that it reads. Placing a unit binds it so and meets no fault (`placeUnit_spec`), and the ledger
stays right (`Ledger.place`).
-/

namespace Patchbay

variable {U : Type} [Device U]

namespace Graph

variable {g : Graph U} {d d' : Draft} {fs : List Frame} {x : UnitId} {n : Node U}

/-! ## What is settled -/

omit [Device U] in
/-- What is settled stays settled while units that are placed stay as they are. -/
theorem settled?_mono {y : UnitId} {k : Nat} {b : BufferId}
    (h : ∀ z, d.visit z = .placed → d'.visit z = .placed ∧ d'.binding z = d.binding z)
    (hs : g.settled? d y k = some b) : g.settled? d' y k = some b := by
  have houtlet : ∀ z, d.visit z = .placed → ∀ o, d'.outlet z o = d.outlet z o := fun z hz o => by
    rw [Draft.outlet, (h z hz).2, Draft.outlet]
  unfold settled? at hs ⊢
  split at hs
  · next hsub =>
    rw [if_pos hsub]
    cases hp : g.portUnit? y .outlet k with
    | none => simpa [hp] using hs
    | some z =>
      simp only [hp] at hs ⊢
      split at hs
      · next hz =>
        rw [if_pos (h z hz).1, houtlet z hz]
        exact hs
      · cases hs
  · next hsub =>
    rw [if_neg hsub]
    split at hs
    · next hy =>
      rw [if_pos (h y hy).1, houtlet y hy]
      exact hs
    · cases hs

/-! ## Placing -/

/-- That a unit is bound to `size` buffers in such a way that it can compute its block. -/
structure Fits (g : Graph U) (x : UnitId) (u : U) (size : Nat) (b : Binding) : Prop where
  inlets : b.inlets.size = (g.ports x).streamInlets
  outlets : b.outlets.size = (g.ports x).streamOutlets
  sources : ∀ o < (g.ports x).streamOutlets, b.sources[o]? = some (Device.source u o)
  read : ∀ buffer ∈ b.inlets, buffer.Below size
  /-- What the unit writes is not what it reads. -/
  own : ∀ o buffer, b.Owns o buffer → buffer ≠ .zero ∧ buffer.Below size ∧ buffer ∉ b.inlets
  once : ∀ o o' buffer, b.Owns o buffer → b.Owns o' buffer → o = o'
  pooled : ∀ o < (g.ports x).streamOutlets, Device.source u o = .pooled →
    ∃ i, b.Owns o (.pooled i)
  forward : ∀ o < (g.ports x).streamOutlets, ∀ j, Device.source u o = .forward j →
    b.outlets[o]? = some ((b.inlets[j]?).getD .zero)

/-- What placing the innermost node, a unit, makes of a draft. -/
structure Placed (g : Graph U) (fs : List Frame) (x : UnitId) (n : Node U) (u : U)
    (inlets : Array BufferId) (d d' : Draft) : Prop where
  places : g.Places d (d'.mark x .placed) x n
  bound : (d'.binding x).inlets = inlets
  fits : g.Fits x u d'.pool.size (d'.binding x)
  /-- What the unit writes was not held for anything else. -/
  apart : ∀ o buffer, (d'.binding x).Owns o buffer →
    buffer ∉ (g.entries (⟨x, inlets⟩ :: fs) d).map Prod.fst
  balances : d'.pool.Balances
    (g.fresh x n (d'.binding x).outlets (g.ports x).streamOutlets ++
      (g.due (⟨x, inlets⟩ :: fs) d ++ fs.flatMap Frame.entries).map Prod.fst)
  pool : d.pool.Extends d'.pool

namespace Ledger

variable {M : g.Meaning} {inlets : Array BufferId} {u : U}

/-- No buffer has more readers than can be counted, once a unit has been placed. -/
theorem count_fits (hl : Ledger M (⟨x, inlets⟩ :: fs) d) (hg : g.Sound)
    (hfit : g.nodes.size + g.connections.length < halfWordSize)
    (ho : g.Orderly (⟨x, inlets⟩ :: fs) d) (hunit : g.isSubgraph x = false)
    (hv : d.visit x = .binding) {a : BufferId} (ha : a ≠ .zero) :
    ((g.entries (⟨x, inlets⟩ :: fs) d).map Prod.fst).count a +
      g.connections.countP (g.Leaves x) < halfWordSize := by
  have h₁ := readers_le (d := d) ho.nodup hl.light
  have h₂ : ((⟨x, inlets⟩ : Frame) :: fs).countP (fun f => f.inlets.size ≠ 0) ≤ g.nodes.size :=
    List.countP_le_length.trans (length_frames_le ho)
  have h₃ := count_le_countP (l := (((⟨x, inlets⟩ : Frame) :: fs).flatMap Frame.entries).map Prod.fst)
    ha
  have h₄ : ((g.due (⟨x, inlets⟩ :: fs) d).map Prod.fst).count a ≤
      (g.due (⟨x, inlets⟩ :: fs) d).length := by
    simpa using List.count_le_length (a := a) (l := (g.due (⟨x, inlets⟩ :: fs) d).map Prod.fst)
  have h₅ := countP_leaves_le hg ho hunit hv
  rw [entries, List.map_append, List.count_append]
  omega

/-- Placing a unit meets no fault. -/
theorem placeUnit_spec (hl : Ledger M (⟨x, inlets⟩ :: fs) d) (hg : g.Sound)
    (hfit : g.nodes.size + g.connections.length < halfWordSize)
    (ho : g.Orderly (⟨x, inlets⟩ :: fs) d) (hn : g.node? x = some n) (hu : n.body = .device u)
    (hv : d.visit x = .binding) (hsize : inlets.size = (g.ports x).streamInlets) :
    Outcome (fun _ => False) (g.Placed fs x n u inlets d) (g.placeUnit x n u inlets d) := by
  have hunit : g.isSubgraph x = false := by simp [isSubgraph, hn, Node.isSubgraph, hu]
  have hc := (ho.framed _ List.mem_cons_self).1
  have hports : g.ports x = n.ports := by simp [ports, hn]
  let base := (g.entries (⟨x, inlets⟩ :: fs) d).map Prod.fst
  let rest := (g.due (⟨x, inlets⟩ :: fs) d ++ fs.flatMap Frame.entries).map Prod.fst
  have hperm : base.Perm (inlets.toList ++ rest) := by
    simp only [base, rest, entries, List.flatMap_cons, List.map_append, Frame.map_entries]
    exact List.perm_append_comm_assoc ..
  have hinlets : ∀ {j : Nat} {a : BufferId}, inlets[j]? = some a → a ∈ base := fun hj =>
    hperm.mem_iff.2 (List.mem_append_left _ (Array.mem_toList_iff.2 (Array.mem_of_getElem? hj)))
  have hleaves : g.connections.countP (g.Leaves x) ≤ g.connections.length := List.countP_le_length
  have hbound := BoundOutlets.all (u := u) hl.balances n.ports.streamOutlets hinlets
    (hports ▸ sum_readers_le hg.nested hn) (by omega) fun a ha =>
      hl.count_fits hg hfit ho hunit hv ha
  unfold placeUnit
  refine hbound.bind fun b hb => ?_
  -- the inlets and what nobody reads are given back
  have hbal : b.pool.Balances ((b.unread ++ inlets.toList) ++
      (g.fresh x n b.outlets n.ports.streamOutlets ++ rest)) := by
    refine hb.balances.perm ((hperm.append_left _).append_left _ |>.trans ?_)
    rw [← List.append_assoc b.unread]
    exact List.perm_append_comm_assoc ..
  obtain ⟨p, hp, hbal', hext, hpsize⟩ := Pool.releaseAll_spec _ hbal
  generalize hB : ({ inlets, outlets := b.outlets, sources := b.sources } : Binding) = B
  generalize hd₁ : ({ d with pool := p } : Draft).bind x B = d₁
  generalize hd₂ : (if n.body.computes then { d₁ with steps := d₁.steps.push (.unit x) } else d₁)
    = d₂
  have heq : (do
      let d ← ({ d with pool := b.pool } : Draft).releaseAll (b.unread ++ inlets.toList)
      let d := d.bind x B
      return if n.body.computes then { d with steps := d.steps.push (.unit x) } else d) =
      (.ok d₂ : Except Fault Draft) := by
    rw [← hd₂, ← hd₁]
    simp only [Draft.releaseAll, hp]
    rfl
  rw [heq]
  have hsame : d₂.visits = d.visits ∧ d₂.bindings = d₁.bindings ∧ d₂.pool = p := by
    rw [← hd₂, ← hd₁]
    split <;> exact ⟨rfl, rfl, rfl⟩
  obtain ⟨hvisits, hbindings, hpool⟩ := hsame
  have hbinding : ∀ y, d₂.binding y = if y = x then B else d.binding y := by
    intro y
    rw [Draft.binding, hbindings, ← Draft.binding, ← hd₁,
      Draft.binding_bind (by exact ho.lt_bindings hc)]
    rfl
  have hself : d₂.binding x = B := by rw [hbinding, if_pos rfl]
  have hmem : ∀ {i}, .pooled i ∈ g.fresh x n b.outlets n.ports.streamOutlets ++ b.unread →
      BufferId.Below d₂.pool.size (.pooled i) := by
    intro i hi
    rw [hpool, hpsize]
    refine hb.balances.below ?_
    rw [← List.append_assoc]
    exact List.mem_append_left _ hi
  have howns : ∀ {o buffer}, B.Owns o buffer →
      o < n.ports.streamOutlets ∧ Device.source u o = .pooled ∧ b.outlets[o]? = some buffer := by
    rintro o buffer ⟨h₁, h₂⟩
    rw [← hB] at h₁ h₂
    have hlt : o < n.ports.streamOutlets := by
      rw [← hb.size]
      exact (Array.getElem?_eq_some_iff.1 h₁).1
    refine ⟨hlt, ?_, h₁⟩
    have := (hb.sources o hlt).symm.trans h₂
    exact Option.some.inj this
  have hapart : ∀ {o buffer}, B.Owns o buffer →
      buffer ∉ base ∧ buffer ≠ .zero ∧ buffer.Below d₂.pool.size := by
    intro o buffer h
    obtain ⟨hlt, hs, he⟩ := howns h
    obtain ⟨i, hi, hnot, hfresh⟩ := hb.pooled o hlt hs
    rw [hi] at he
    cases he
    exact ⟨hnot, by simp, hmem hfresh⟩
  constructor
  · refine ⟨hn, by simp [hv], ?_, fun y hy => ?_, fun y hy => ?_, ?_⟩
    · exact Draft.visit_mark_self (by rw [hvisits]; exact ho.lt_visits hc) _
    · rw [Draft.visit_mark_of_ne hy, Draft.visit, hvisits, Draft.visit]
    · rw [Draft.binding_mark, hbinding, if_neg hy]
    · rw [← hd₂, ← hd₁]
      split <;> rfl
  · rw [hself, ← hB]
  · constructor
    · rw [hself, ← hB]
      exact hsize
    · rw [hself, ← hB, hports]
      exact hb.size
    · intro o ho'
      rw [hself, ← hB]
      exact hb.sources o (hports ▸ ho')
    · intro buffer hbuffer
      rw [hself, ← hB] at hbuffer
      rw [hpool, hpsize]
      refine hb.balances.below (List.mem_append_right _ (List.mem_append_right _ ?_))
      exact hperm.mem_iff.2 (List.mem_append_left _ (Array.mem_toList_iff.2 hbuffer))
    · intro o buffer h
      rw [hself] at h
      obtain ⟨hnot, hne, hbelow⟩ := hapart h
      refine ⟨hne, hbelow, fun hin => hnot ?_⟩
      rw [hself, ← hB] at hin
      exact hperm.mem_iff.2 (List.mem_append_left _ (Array.mem_toList_iff.2 hin))
    · intro o o' buffer h h'
      rw [hself] at h h'
      obtain ⟨hlt, hs, he⟩ := howns h
      obtain ⟨hlt', hs', he'⟩ := howns h'
      exact hb.once o hlt o' hlt' hs hs' (he.trans he'.symm)
    · intro o ho' hs
      obtain ⟨i, hi, -, -⟩ := hb.pooled o (hports ▸ ho') hs
      refine ⟨i, ?_⟩
      rw [hself, ← hB]
      exact ⟨hi, by rw [← hs]; exact hb.sources o (hports ▸ ho')⟩
    · intro o ho' j hs
      rw [hself, ← hB]
      exact hb.forward o (hports ▸ ho') j hs
  · intro o buffer h
    rw [hself] at h
    exact (hapart h).1
  · rw [hpool, hself, ← hB, hports]
    exact hbal'
  · rw [hpool]
    exact hb.grown.trans hext

/-- What is at the outlets of a unit once it has been placed. -/
theorem holds_outlet (hl : Ledger M (⟨x, inlets⟩ :: fs) d) (hn : g.node? x = some n)
    (hu : n.body = .device u) (hsize : inlets.size = (g.ports x).streamInlets)
    (hp : g.Placed fs x n u inlets d d') {o : Nat} (ho : o < (g.ports x).streamOutlets) :
    M.Holds (d'.mark x .placed) (((d'.binding x).outlets[o]?).getD .zero) [.outlet x o] := by
  cases hs : Device.source u o with
  | pooled =>
    obtain ⟨i, hi⟩ := hp.fits.pooled o ho hs
    rw [hi.1]
    exact M.own hp.places hu hs ho hi fun o' ho' => hp.fits.once o' o _ ho' hi
  | forward j =>
    rw [hp.fits.forward o ho j hs, hp.bound]
    by_cases hj : j < (g.ports x).streamInlets
    · have hj' : j < inlets.size := hsize ▸ hj
      rw [Array.getElem?_eq_getElem hj']
      have hentry : (inlets[j], [StreamPort.inlet x j]) ∈ g.entries (⟨x, inlets⟩ :: fs) d := by
        refine List.mem_append_right _ (List.mem_flatMap.2 ⟨_, List.mem_cons_self, ?_⟩)
        refine List.mem_map.2 ⟨(inlets[j], j), ?_, rfl⟩
        rw [List.mem_zipIdx_iff_getElem?]
        simp [hj']
      refine M.forward hn hu hs hj (M.ownOther hp.places hu (fun o' hown => ?_)
        (hl.holds _ hentry))
      exact hp.apart o' _ hown (List.mem_map_of_mem hentry)
    · rw [Array.getElem?_eq_none (by omega)]
      exact M.lost hn hu hs (by omega)

/-- Placing a unit: the connections that read its outlets become due, and its inlets are given
back. -/
theorem place (hl : Ledger M (⟨x, inlets⟩ :: fs) d) (hg : g.Sound)
    (ho : g.Orderly (⟨x, inlets⟩ :: fs) d) (hn : g.node? x = some n) (hu : n.body = .device u)
    (hv : d.visit x = .binding) (hsize : inlets.size = (g.ports x).streamInlets)
    (hp : g.Placed fs x n u inlets d d') : Ledger M fs (d'.mark x .placed) := by
  have hunit : g.isSubgraph x = false := by simp [isSubgraph, hn, Node.isSubgraph, hu]
  generalize hB : (d'.binding x).outlets = outlets
  have hvisit : ∀ y, (d'.mark x .placed).visit y = if y = x then .placed else d.visit y := by
    intro y
    split
    · next h => rw [h, hp.places.placed]
    · next h => exact hp.places.visits y h
  have hafter : g.After d (d'.mark x .placed) x outlets := ⟨hvisit, hp.places.bindings, hB⟩
  let rest := g.due (⟨x, inlets⟩ :: fs) d ++ fs.flatMap Frame.entries
  have hentries : (g.entries fs (d'.mark x .placed)).Perm
      ((g.connections.filter (g.Leaves x)).map
        (fun c => (bufferOf x outlets c, [.outlet c.source c.outlet])) ++ rest) := by
    simp only [entries, rest, ← List.append_assoc]
    exact (due_place hg ho hunit hv hsize hafter).append_right _
  refine ⟨?_, fun e he => ?_, fun y k hy hvy hk => ?_, fun f hf =>
    hl.light f (List.mem_cons_of_mem _ hf)⟩
  · refine (hp.balances.congr fun i => ?_).perm (hentries.map Prod.fst).symm
    have := count_fresh hg.nested hn hp.fits.outlets (b := .pooled i) (by simp)
    rw [hB] at this
    simp only [List.map_append, List.count_append, List.map_map, hB, this, rest]
    rfl
  · rcases List.mem_append.1 (hentries.mem_iff.1 he) with he | he
    · obtain ⟨c, hc, rfl⟩ := List.mem_map.1 he
      obtain ⟨hk, hl'⟩ := of_decide_eq_true (List.mem_filter.1 hc).2
      have hout : ∀ {o}, o < (g.ports x).streamOutlets →
          M.Holds (d'.mark x .placed) ((outlets[o]?).getD .zero) [.outlet x o] := fun ho' => by
        rw [← hB]
        exact hl.holds_outlet hn hu hsize hp ho'
      by_cases hcx : c.source = x
      · rw [bufferOf, if_pos hcx, hcx]
        exact hout (by rw [← hcx]; exact outlet_lt_of_kindOf hk)
      · obtain ⟨hown, hport⟩ := hl'.resolve_left hcx
        have hpu := hg.nested.portUnit?_eq_some.2 ⟨hown, hport⟩
        have hsub := hg.nested.holder hown
        rw [bufferOf, if_neg hcx]
        by_cases hpos : 0 < (g.ports x).streamOutlets
        · exact M.through hsub hpu hpos (hout hpos)
        · rw [Array.getElem?_eq_none (by rw [← hB, hp.fits.outlets]; omega)]
          refine M.closed hsub fun y hy => ?_
          rw [hpu] at hy
          cases hy
          omega
    · have he' : e ∈ g.entries (⟨x, inlets⟩ :: fs) d := by
        rcases List.mem_append.1 he with he | he
        · exact List.mem_append_left _ he
        · refine List.mem_append_right _ ?_
          rw [List.flatMap_cons]
          exact List.mem_append_right _ he
      refine M.ownOther hp.places hu (fun o hown => ?_) (hl.holds e he')
      exact hp.apart o _ hown (List.mem_map_of_mem he')
  · have hyx : y ≠ x := by
      rintro rfl
      rw [hunit] at hy
      cases hy
    rw [hvisit, if_neg hyx] at hvy
    have hout : (d'.mark x .placed).outlet y k = d.outlet y k := by
      rw [Draft.outlet, hp.places.bindings y hyx, Draft.outlet]
    rw [hout]
    refine settled?_mono (fun z hz => ?_) (hl.taken y k hy hvy hk)
    have hzx : z ≠ x := by
      rintro rfl
      rw [hv] at hz
      cases hz
    exact ⟨by rw [hvisit, if_neg hzx, hz], hp.places.bindings z hzx⟩

end Ledger
end Graph
end Patchbay
