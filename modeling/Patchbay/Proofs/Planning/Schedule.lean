import Patchbay.Proofs.Planning.Visiting

/-!
# What a name puts first

Emitters come before collectors, and the owner of a delay line before its readers, unless the first
depends on the second. Since a subgraph is placed as a whole, once all its inlets are bound, a
connection that ends at a subgraph leads to everything inside it, and one that starts there starts at
everything inside it; and when a name puts a unit inside a subgraph first, it puts the subgraph first.
This is `Before`.

The walk puts a unit off only if it waits, and then it depends on the one that asked for it
(`before_of_waits`), for everything that the walk is in the middle of does (`Serves`).
-/

namespace Patchbay

open Relation

variable {U : Type}

namespace Graph

/-- Whether a node must come before another, by a connection or by a name. -/
inductive Before (g : Graph U) : UnitId → UnitId → Prop
  /-- By a connection between the two, or between subgraphs that hold them. -/
  | connection {c : Connection} {x y : UnitId} : c ∈ g.connections → g.Within x c.source →
      g.Within y c.dest → Before g x y
  /-- By a name of the node, or of another inside a subgraph that must be placed as a whole. -/
  | name {w c s x : UnitId} : g.Named w c → g.Within w s → ¬ g.Within c s → g.Within x s →
      Before g x c

/-- Whether a node can only be computed after another. -/
def Depends (g : Graph U) (y x : UnitId) : Prop := TransGen g.Before x y

variable {g : Graph U} {d : Draft} {fs : List Frame} {x : UnitId}

theorem Before.of_streams {s x k w : UnitId} (h : g.Streams s x) (hk : g.Within k s)
    (hw : g.Within w x) : g.Before k w := by
  obtain ⟨c, hc, -, rfl, rfl⟩ := h
  exact .connection hc hk hw

theorem Before.of_sends {s x k w : UnitId} (h : g.Sends s x) (hk : g.Within k s)
    (hw : g.Within w x) : g.Before k w := by
  obtain ⟨c, hc, -, rfl, rfl⟩ := h
  exact .connection hc hk hw

/-- What a name puts first or second is a unit. -/
theorem Named.not_subgraph (hg : g.Registered) {w c : UnitId} (h : g.Named w c) :
    g.isSubgraph w = false ∧ g.isSubgraph c = false := by
  have hseat : ∀ {x s}, g.seat? x = some s → g.isSubgraph x = false := fun hx => by
    obtain ⟨role, hrole, -⟩ := Option.map_eq_some_iff.1 hx
    exact hg.unit hrole
  rcases h with ⟨_, _, hw, hc⟩ | ⟨_, hw, hc⟩ <;> exact ⟨hseat hw, hseat hc⟩

theorem Named.ne {w c : UnitId} (h : g.Named w c) : w ≠ c := by
  rintro rfl
  rcases h with ⟨_, _, hw, hc⟩ | ⟨_, hw, hc⟩ <;> rw [hw] at hc <;> cases hc

/-- Nothing lies inside a unit. -/
theorem eq_of_within_unit (hg : g.Nested) {w x : UnitId} (hx : g.isSubgraph x = false)
    (h : g.Within w x) : w = x := by
  induction h using ReflTransGen.head_induction_on with
  | refl => rfl
  | head ho _ ih =>
    rw [hg.holder (ih ▸ ho)] at hx
    cases hx

/-! ## In the middle of a walk -/

/-- Whether all that planning is in the middle of can only be computed after a node. -/
structure Serves (g : Graph U) (d : Draft) (k : UnitId) : Prop where
  binding : ∀ {z w}, g.contains z = true → d.visit z = .binding → g.Within w z →
    TransGen g.Before k w
  filling : ∀ {z}, g.contains z = true → d.visit z = .filling →
    ∃ k', g.Within k' z ∧ ReflTransGen g.Before k k'

/-- Whether everything that must be placed together with a node serves what planning is in the
middle of. -/
def Awaited (g : Graph U) (d : Draft) (x : UnitId) : Prop :=
  ∀ {a k}, d.visit a = .unvisited → g.Within x a → g.Within k a → g.Serves d k

theorem Serves.congr {d' : Draft} {k : UnitId} (h : g.Serves d k)
    (hb : ∀ z, d'.visit z = .binding → d.visit z = .binding)
    (hf : ∀ z, d'.visit z = .filling → d.visit z = .filling) : g.Serves d' k :=
  ⟨fun hz hv => h.binding hz (hb _ hv), fun hz hv => h.filling hz (hf _ hv)⟩

/-- What comes before a node serves what the node serves. -/
theorem Serves.before {k x : UnitId} (h : g.Serves d x) (hk : g.Before k x) : g.Serves d k where
  binding hz hv hw := .head hk (h.binding hz hv hw)
  filling hz hv := by
    obtain ⟨k', hk', hb⟩ := h.filling hz hv
    exact ⟨k', hk', .head hk hb⟩

/-- Nothing inside a node that has not been reached has been reached. -/
theorem Orderly.unvisited_of_within (h : g.Orderly fs d) {x a : UnitId} (hx : g.Within x a)
    (ha : d.visit a = .unvisited) : d.visit x = .unvisited := by
  induction hx using ReflTransGen.head_induction_on with
  | refl => exact ha
  | head ho _ ih =>
    by_contra hne
    exact h.reached ho hne ih

/-- A node whose owner has been reached lies in nothing else that has not been. -/
theorem Orderly.eq_of_unvisited (h : g.Orderly fs d) {x a : UnitId}
    (hx : ∀ o, g.owner? x = some o → d.visit o ≠ .unvisited) (hxa : g.Within x a)
    (ha : d.visit a = .unvisited) : x = a := by
  rcases hxa.cases_owner with rfl | ⟨o, ho, hoa⟩
  · rfl
  · exact absurd (h.unvisited_of_within hoa ha) (hx o ho)

/-- Around a node that has not been reached there is a largest one. -/
theorem exists_outermost (hg : g.Nested) {x : UnitId} (hx : d.visit x = .unvisited) :
    ∃ a, g.Within x a ∧ d.visit a = .unvisited ∧
      ∀ o, g.owner? a = some o → d.visit o ≠ .unvisited := by
  induction hi : x.index using Nat.strong_induction_on generalizing x with
  | _ i ih =>
    by_cases h : ∃ o, g.owner? x = some o ∧ d.visit o = .unvisited
    · obtain ⟨o, ho, hv⟩ := h
      obtain ⟨a, hoa, ha⟩ := ih o.index (hi ▸ hg.older ho) hv rfl
      exact ⟨a, .of_owner ho hoa, ha⟩
    · exact ⟨x, .refl g x, hx, fun o ho hv => h ⟨o, ho, hv⟩⟩

/-- While a node is in the middle, what must come before it serves it and all that it serves. -/
theorem Awaited.before (he : g.Entering fs d x) (hr : g.Awaited d x) {k : UnitId}
    (hk : ∀ w, g.Within w x → g.Before k w) : g.Serves (d.mark x .binding) k := by
  have hx := (hr he.unvisited (.refl g x) (.refl g x)).before (hk x (.refl g x))
  refine ⟨fun {z w} hz hv hw => ?_, fun {z} hz hv => ?_⟩
  · by_cases hzx : z = x
    · exact .single (hk w (hzx ▸ hw))
    · exact hx.binding hz (by rwa [Draft.visit_mark_of_ne hzx] at hv) hw
  · by_cases hzx : z = x
    · rw [hzx, Draft.visit_mark_self (he.orderly.lt_visits he.contains)] at hv
      cases hv
    · exact hx.filling hz (by rwa [Draft.visit_mark_of_ne hzx] at hv)

/-- What has not been reached around a node of the same level is the node itself. -/
theorem Entering.eq_of_level (he : g.Entering fs d x) {s a : UnitId} {v : Visit}
    (hv : v ≠ .unvisited) (hl : g.owner? s = g.owner? x) (hsa : g.Within s a)
    (ha : (d.mark x v).visit a = .unvisited) : s = a := by
  have hne : a ≠ x := by
    rintro rfl
    rw [Draft.visit_mark_self (he.orderly.lt_visits he.contains)] at ha
    exact hv ha
  rw [Draft.visit_mark_of_ne hne] at ha
  rcases hsa.cases_owner with rfl | ⟨o, ho, hoa⟩
  · rfl
  · exact absurd (he.orderly.unvisited_of_within hoa ha) (he.owner o (hl ▸ ho))

/-- A node that has been entered lies in nothing that has not been reached. -/
theorem Entering.not_within (he : g.Entering fs d x) {a : UnitId} {v : Visit}
    (hv : v ≠ .unvisited) (ha : (d.mark x v).visit a = .unvisited) : ¬ g.Within x a := by
  intro hxa
  rw [← he.eq_of_level hv rfl hxa ha,
    Draft.visit_mark_self (he.orderly.lt_visits he.contains)] at ha
  exact hv ha

/-- What a message or a name puts before a node comes with all that is placed together with it. -/
theorem before_of_parent (hg : g.Sound) (he : g.Entering fs d x) {p a k : UnitId} {v : Visit}
    (hv : v ≠ .unvisited) (hp : g.Sends p x ∨ g.Named p x)
    (ha : (d.mark x v).visit a = .unvisited) (hpa : g.Within p a) (hka : g.Within k a) :
    ∀ w, g.Within w x → g.Before k w := by
  intro w hw
  rcases hp with hp | hp
  · have hlevel : g.owner? p = g.owner? x := by
      obtain ⟨c, hc, -, rfl, rfl⟩ := hp
      exact hg.wired.level c hc
    rw [← he.eq_of_level hv hlevel hpa ha] at hka
    exact .of_sends hp hka hw
  · rw [eq_of_within_unit hg.nested (hp.not_subgraph hg.registered).2 hw]
    exact .name hp hpa (he.not_within hv ha) hka

/-- What a unit that was just entered would wait for depends on the unit. -/
theorem before_of_waits (hg : g.Sound) {c : UnitId} (he : g.Entering fs d c) (hr : g.Awaited d c)
    (hunit : g.isSubgraph c = false) {y : UnitId} (h : g.Waits (d.mark c .binding) y) :
    ((d.mark c .binding).Busy y → ∃ k, g.Within k y ∧ ReflTransGen g.Before c k) ∧
    ((d.mark c .binding).visit y = .unvisited → ∀ {a w}, g.Within y a →
      (d.mark c .binding).visit a = .unvisited →
      (∀ o, g.owner? a = some o → (d.mark c .binding).visit o ≠ .unvisited) →
      g.Within w a → TransGen g.Before c w) := by
  have ho := he.enter hg.nested
  have hserves : g.Serves d c := hr he.unvisited (.refl g c) (.refl g c)
  have hvisit := Draft.visit_mark (he.orderly.lt_visits he.contains) .binding
  have hnot : ∀ {x}, (d.mark c .binding).visit x = .unvisited →
      ¬ (d.mark c .binding).Busy x := by
    rintro x hx (hb | hb) <;> rw [hx] at hb <;> cases hb
  induction h with
  | @busy y hy hb =>
    refine ⟨fun _ => ?_, fun hv => absurd hb (hnot hv)⟩
    by_cases hyc : y = c
    · exact ⟨c, hyc ▸ .refl g c, .refl⟩
    · rw [Draft.Busy, Draft.visit_mark_of_ne hyc] at hb
      rcases hb with hb | hb
      · exact ⟨y, .refl g y, (hserves.binding hy hb (.refl g y)).to_reflTransGen⟩
      · exact hserves.filling hy hb
  | @feed y o k hv howner _ hb =>
    refine ⟨fun hb => absurd hb (hnot hv), fun _ a w hya ha _ hw => ?_⟩
    have hoc : o ≠ c := by
      rintro rfl
      rw [hg.nested.holder howner] at hunit
      cases hunit
    have hya : y = a := ho.eq_of_unvisited (fun o' ho' => by
      rw [howner] at ho'
      cases ho'
      simp [hb]) hya ha
    subst hya
    rw [Draft.visit_mark_of_ne hoc] at hb
    exact hserves.binding (contains_of_isSubgraph (hg.nested.holder howner)) hb
      (hw.trans (.of_owner howner (.refl g o)))
  | @step y z _ hv hl hz ih =>
    refine ⟨fun hb => absurd hb (hnot hv), fun _ a w hya ha htop hw => ?_⟩
    rcases hl with hl | hl | ⟨hl, hvz⟩
    · have hlevel := level_of_transGen hg.wired (.single hl)
      rcases hya.cases_owner with rfl | ⟨o, howner, hoa⟩
      · -- a stream from outside leads to all that is placed together with `y`
        cases hvz : (d.mark c .binding).visit z with
        | unvisited =>
          exact (ih.2 hvz (.refl g z) hvz (fun o ho => htop o (hlevel ▸ ho)) (.refl g z)).tail
            (.of_streams hl (.refl g z) hw)
        | placed =>
          cases hz with
          | busy _ hb => rcases hb with hb | hb <;> rw [hvz] at hb <;> cases hb
          | feed hu | step _ hu =>
            rw [hvz] at hu
            cases hu
        | binding =>
          obtain ⟨k, hk, hck⟩ := ih.1 (.inl hvz)
          exact .tail' hck (.of_streams hl hk hw)
        | filling =>
          obtain ⟨k, hk, hck⟩ := ih.1 (.inr hvz)
          exact .tail' hck (.of_streams hl hk hw)
      · have hza := Within.of_owner (hlevel.trans howner) hoa
        exact ih.2 (ho.unvisited_of_within hza ha) hza ha htop hw
    · have hza := Within.of_owner hl hya
      exact ih.2 (ho.unvisited_of_within hza ha) hza ha htop hw
    · rcases hya.cases_owner with rfl | ⟨o, howner, hoa⟩
      · exact absurd hvz (htop z hl)
      · rw [hl] at howner
        cases howner
        exact ih.2 hvz hoa ha htop hw

/-- A unit that was put off although a name puts it first depends on the one that asked for it. -/
theorem before_of_waits_unit (hg : g.Sound) {c w : UnitId} (he : g.Entering fs d c)
    (hr : g.Awaited d c) (hn : g.Named w c) (h : g.Waits (d.mark c .binding) w) :
    g.Depends w c := by
  obtain ⟨hwu, hcu⟩ := hn.not_subgraph hg.registered
  obtain ⟨-, hopen⟩ := before_of_waits hg he hr hcu h
  cases hv : (d.mark c .binding).visit w with
  | unvisited =>
    obtain ⟨a, hwa, ha, htop⟩ := exists_outermost hg.nested hv
    exact hopen hv hwa ha htop hwa
  | binding =>
    rw [Draft.visit_mark_of_ne hn.ne] at hv
    exact (hr he.unvisited (.refl g c) (.refl g c)).binding h.contains hv (.refl g w)
  | filling =>
    -- only subgraphs are filled
    have ho := he.enter hg.nested
    obtain ⟨f, hf, hfw⟩ := List.mem_map.1 ((ho.busy h.contains).1 (.inr hv))
    have := (ho.filling f hf (hfw ▸ hv)).1
    rw [hfw, hwu] at this
    cases this
  | placed =>
    cases h with
    | busy _ hb => rcases hb with hb | hb <;> rw [hv] at hb <;> cases hb
    | feed hu | step _ hu =>
      rw [hv] at hu
      cases hu

/-! ## Steps -/

variable [Device U]

/-- Whether a node computes samples. -/
def Computes (g : Graph U) (x : UnitId) : Prop := ∃ n, g.node? x = some n ∧ n.body.computes = true

/-- That the steps of units are those of the units that are placed, and that a step comes behind
those that a name puts before it. -/
structure Scheduled (g : Graph U) (d : Draft) : Prop where
  units : ∀ x, .unit x ∈ d.steps.toList ↔ d.visit x = .placed ∧ g.Computes x
  named : ∀ {pre post : List Step} {c w : UnitId}, d.steps.toList = pre ++ .unit c :: post →
    g.Named w c → ¬ g.Depends w c → g.Computes w → .unit w ∈ pre
  once : (d.steps.toList.filterMap Step.unit?).Nodup

namespace Scheduled

/-- Sums change nothing about the order of units. -/
theorem grow {d' : Draft} (h : g.Scheduled d)
    (hv : ∀ x, g.Computes x → (d'.visit x = .placed ↔ d.visit x = .placed))
    (hs : d.AddsSums d') : g.Scheduled d' := by
  obtain ⟨sums, hsteps, hnot⟩ := hs
  refine ⟨fun x => ?_, fun {pre post c w} heq => ?_, ?_⟩
  · rw [hsteps, List.mem_append, or_iff_left (hnot x), h.units]
    exact and_congr_left fun hx => (hv x hx).symm
  · rw [hsteps] at heq
    obtain ⟨post', heq⟩ := eq_append_of_append_eq heq (hnot c)
    exact h.named heq
  · have hsums : sums.filterMap Step.unit? = [] := by
      refine List.filterMap_eq_nil_iff.2 fun s hs => ?_
      cases s with
      | unit x => exact absurd hs (hnot x)
      | sum => rfl
    rw [hsteps, List.filterMap_append, hsums, List.append_nil]
    exact h.once

/-- Placing a unit adds its step, if it computes, behind those of all that a name puts before it. -/
theorem place {d' : Draft} {x : UnitId} {n : Node U} (h : g.Scheduled d) (hn : g.node? x = some n)
    (hx : d.visit x ≠ .placed) (hlt : x.index < d'.visits.size) (hv : d'.visits = d.visits)
    (hs : d'.steps = if n.body.computes then d.steps.push (.unit x) else d.steps)
    (hnamed : ∀ w, g.Named w x → ¬ g.Depends w x → d.visit w = .placed) :
    g.Scheduled (d'.mark x .placed) := by
  have hvisit : ∀ y, (d'.mark x .placed).visit y = if y = x then .placed else d.visit y := fun y => by
    rw [Draft.visit_mark hlt, Draft.visit, hv, Draft.visit]
  have hcomputes : g.Computes x ↔ n.body.computes = true := by
    refine ⟨?_, fun hc => ⟨n, hn, hc⟩⟩
    rintro ⟨n', hn', hc⟩
    rw [hn] at hn'
    cases hn'
    exact hc
  have hsteps : (d'.mark x .placed).steps = d'.steps := rfl
  by_cases hc : n.body.computes = true
  · rw [if_pos hc] at hs
    have hlist : (d'.mark x .placed).steps.toList = d.steps.toList ++ [.unit x] := by
      rw [hsteps, hs, Array.toList_push]
    refine ⟨fun y => ?_, fun {pre post c w} heq hnc hdep hw => ?_, ?_⟩
    · rw [hlist, List.mem_append, List.mem_singleton, h.units, hvisit]
      by_cases hyx : y = x
      · subst hyx
        simp [hcomputes, hc]
      · simp [hyx]
    · rw [hlist] at heq
      rcases eq_or_eq_append_of_append_singleton heq with ⟨rfl, hcx⟩ | ⟨post', heq⟩
      · cases hcx
        exact (h.units w).2 ⟨hnamed w hnc hdep, hw⟩
      · exact h.named heq hnc hdep hw
    · rw [hlist, List.filterMap_append]
      refine List.nodup_append.2 ⟨h.once, by simp [Step.unit?], ?_⟩
      rintro y hy z hz rfl
      have hyx : y = x := by simpa [Step.unit?] using hz
      obtain ⟨s, hs', hunit⟩ := List.mem_filterMap.1 hy
      cases s with
      | sum => cases hunit
      | unit w =>
        cases hunit
        exact hx ((h.units _).1 (hyx ▸ hs')).1
  · rw [if_neg hc] at hs
    refine h.grow (fun y hy => ?_) (.of_steps (hsteps.trans hs))
    rw [hvisit, if_neg]
    rintro rfl
    exact hc (hcomputes.1 hy)

end Scheduled

/-! ## Along the walk -/

/-- The order of steps is kept along the walk. -/
def scheduleClient (hg : g.Sound) : Client g where
  Faulty _ := True
  Inv _ d := g.Scheduled d
  Ready d x := g.Awaited d x
  ready_advances := by
    intro d d' x hadv hr a k ha hxa hka
    have hbusy : ∀ {z}, d'.Busy z → d.visit z = d'.visit z := fun h => hadv.visit_of_busy h
    exact (hr (hadv.unvisited ha) hxa hka).congr (fun z hz => (hbusy (.inl hz)).trans hz)
      fun z hz => (hbusy (.inr hz)).trans hz
  ready_top := by
    intro d x ho a k _ _ _
    refine ⟨fun hz hv => ?_, fun hz hv => ?_⟩
    · simpa using (ho.busy hz).1 (.inl hv)
    · simpa using (ho.busy hz).1 (.inr hv)
  ready_owner := by
    intro d x o ho _ hr a k ha hoa hka
    exact hr ha (.of_owner ho hoa) hka
  ready_source := by
    intro fs d x s he hr hs a k ha hsa hka
    have hlevel := level_of_transGen hg.wired (.single hs)
    rw [← he.eq_of_level (by simp) hlevel hsa ha] at hka
    exact hr.before he fun w hw => .of_streams hs hka hw
  ready_parent := by
    intro fs d x p he hr hp a k ha hpa hka
    exact hr.before he
      (before_of_parent hg he (by simp) ((mem_orderingParents hg).1 hp) ha hpa hka)
  ready_child := by
    intro fs d x c he hr hc a k ha hca hka
    have hlt := he.orderly.lt_visits he.contains
    have hac : c = a := by
      rcases hca.cases_owner with rfl | ⟨o, ho, hoa⟩
      · rfl
      · rw [hc] at ho
        cases ho
        exact absurd hoa (he.not_within (by simp) ha)
    subst hac
    have hkx := hka.trans (.of_owner hc (.refl g x))
    have hk := hr he.unvisited (.refl g x) hkx
    refine ⟨fun {z w} hz hv hw => ?_, fun {z} hz hv => ?_⟩
    · by_cases hzx : z = x
      · rw [hzx, Draft.visit_mark_self hlt] at hv
        cases hv
      · exact hk.binding hz (by rwa [Draft.visit_mark_of_ne hzx] at hv) hw
    · by_cases hzx : z = x
      · exact ⟨k, hzx ▸ hkx, .refl⟩
      · exact hk.filling hz (by rwa [Draft.visit_mark_of_ne hzx] at hv)
  ready_later := by
    intro fs d x p he hr hp a k ha hpa hka
    have hlt := he.orderly.lt_visits he.contains
    have hk := before_of_parent hg he (by simp) ((mem_orderingParents hg).1 hp) ha hpa hka x
      (.refl g x)
    have hmark : ∀ {z v}, v ≠ .placed → (d.mark x .placed).visit z = v → d.visit z = v := by
      intro z v hne hz
      rw [Draft.visit_mark hlt] at hz
      split at hz
      · exact absurd hz.symm hne
      · exact hz
    exact ((hr he.unvisited (.refl g x) (.refl g x)).before hk).congr
      (fun z hz => hmark (by simp) hz) fun z hz => hmark (by simp) hz
  enter := by
    rintro fs d x he hi
    refine hi.grow (fun y _ => ?_) (.of_steps rfl)
    rw [Draft.visit_mark (he.orderly.lt_visits he.contains)]
    split
    · next hyx => simp [hyx, he.unvisited]
    · rfl
  mix := by
    rintro fs d x n inlets ho hi - - - -
    refine (Outcome.total _).attach.mono ?_
    rintro r ⟨-, heq⟩
    obtain ⟨hv, -, hs⟩ := mixInlet_keeps heq
    exact hi.grow (fun y _ => by rw [Draft.visit, hv, Draft.visit]) hs
  unit := by
    rintro fs d₀ d x n u inlets he hr hadv hparents ho hi hn hu hv -
    refine (Outcome.total _).attach.mono ?_
    rintro d' ⟨-, heq⟩
    obtain ⟨hvisits, -, -, hs⟩ := placeUnit_keeps heq
    have hunit : g.isSubgraph x = false := by simp [isSubgraph, hn, Node.isSubgraph, hu]
    refine hi.place hn (by simp [hv]) ?_ hvisits hs fun w hw hdep => ?_
    · rw [hvisits]
      exact ho.lt_visits he.contains
    · refine (hparents w ((mem_orderingParents hg).2 (.inr hw))).resolve_right fun hwaits => hdep ?_
      exact before_of_waits_unit hg he hr hw hwaits
  fill := by
    rintro fs d x inlets ho hi hv - -
    have hlt := ho.lt_visits (ho.framed _ List.mem_cons_self).1
    refine hi.grow (fun y _ => ?_) (.of_steps rfl)
    rw [openContents, Draft.visit_mark (by exact hlt), Draft.visit_bind]
    split
    · next hyx => simp [hyx, hv]
    · rfl
  close := by
    rintro fs d x inlets ho hi hv -
    refine (Outcome.total _).attach.mono ?_
    rintro d' ⟨-, heq⟩
    obtain ⟨hvisits, -, -, hs⟩ := closeContents_keeps heq
    obtain ⟨hsub, -⟩ := ho.filling _ List.mem_cons_self hv
    refine hi.grow (fun y hy => ?_) (.of_steps hs)
    have hyx : y ≠ x := by
      rintro rfl
      obtain ⟨n, hn, hc⟩ := hy
      rw [isSubgraph, hn] at hsub
      cases hbody : n.body <;> simp [Node.isSubgraph, Body.computes, hbody] at hsub hc
    rw [Draft.visit_mark_of_ne hyx, Draft.visit, hvisits, Draft.visit]

theorem scheduled_startDraft : g.Scheduled g.startDraft where
  units x := by
    refine ⟨fun h => by simp [startDraft] at h, ?_⟩
    rintro ⟨hv, n, hn, -⟩
    rw [visit_startDraft (contains_iff.2 ⟨n, hn⟩)] at hv
    cases hv
  named h := by simp [startDraft] at h
  once := by simp [startDraft]

/-- At the end of the walk all units that compute have a step, in the order that names ask for. -/
theorem scheduled_fullDraft (hg : g.Sound) (h : g.fullDraft = .ok d) :
    g.Scheduled d ∧ ∀ x, g.contains x = true → d.visit x = .placed := by
  obtain ⟨-, hi, hplaced⟩ := (fullDraft_spec hg (scheduleClient hg) scheduled_startDraft).of_ok h
  exact ⟨hi, hplaced⟩

end Graph

/-! ## Positions -/

namespace Plan

variable {p : Plan} {x w : UnitId}

theorem mem_units : x ∈ p.units ↔ .unit x ∈ p.steps.toList := by
  rw [units, List.mem_filterMap]
  constructor
  · rintro ⟨s, hs, h⟩
    cases s with
    | unit y =>
      cases h
      exact hs
    | sum => cases h
  · exact fun h => ⟨_, h, rfl⟩

theorem isSome_position? : (p.position? x).isSome = true ↔ x ∈ p.units := by
  simp [position?, List.findIdx?_isSome, List.any_eq_true]

/-- The position of a unit is the number of units in front of it. -/
theorem position?_eq_some {j : Nat} (h : p.position? x = some j) :
    ∃ pre post, p.steps.toList = pre ++ .unit x :: post ∧ (pre.filterMap Step.unit?).length = j := by
  obtain ⟨hj, hx, -⟩ := List.findIdx?_eq_some_iff_getElem.1 h
  have hx : p.units[j] = x := by simpa using hx
  have hsplit : p.units = p.units.take j ++ x :: p.units.drop (j + 1) := by
    rw [← hx, List.getElem_cons_drop, List.take_append_drop]
  rw [units] at hsplit
  obtain ⟨l₁, l₂, hsteps, hl₁, hl₂⟩ := List.filterMap_eq_append_iff.1 hsplit
  obtain ⟨l₃, s, l₄, rfl, hnone, hs, -⟩ := List.filterMap_eq_cons_iff.1 hl₂
  have hs : s = .unit x := by
    cases s with
    | unit y =>
      cases hs
      rfl
    | sum => cases hs
  subst hs
  refine ⟨l₁ ++ l₃, l₄, by rw [hsteps, List.append_assoc], ?_⟩
  rw [List.filterMap_append, List.filterMap_eq_nil_iff.2 hnone, hl₁, List.append_nil,
    List.length_take]
  exact Nat.min_eq_left hj.le

/-- A unit with a step in front of every step of another has a smaller position. -/
theorem position?_lt {i j : Nat} (h : ∀ pre post, p.steps.toList = pre ++ .unit x :: post →
    .unit w ∈ pre) (hi : p.position? w = some i) (hj : p.position? x = some j) : i < j := by
  obtain ⟨pre, post, hsteps, rfl⟩ := position?_eq_some hj
  have hw : w ∈ pre.filterMap Step.unit? := List.mem_filterMap.2 ⟨_, h pre post hsteps, rfl⟩
  obtain ⟨k, hk, hkw⟩ := List.getElem_of_mem hw
  obtain ⟨hiu, -, hfirst⟩ := List.findIdx?_eq_some_iff_getElem.1 hi
  have hunits : p.units = pre.filterMap Step.unit? ++ x :: post.filterMap Step.unit? := by
    rw [units, hsteps, List.filterMap_append]
    rfl
  by_contra hle
  have hki : k < i := by omega
  refine hfirst k hki ?_
  simp [hunits, List.getElem_append_left hk, hkw]

end Plan
end Patchbay
