import Patchbay.Proofs.Graph.Structure
import Patchbay.Proofs.Outcome

/-!
# Adding nodes

A new node gets a number that nothing refers to yet, so adding one disturbs nothing (`sound_insert`).
What becomes a port makes its owner grow: new ports come after the ones there were, and the kinds of
those do not change.
-/

namespace Patchbay

variable {U : Type}

/-- What growing by a port does: no port is lost, no outlet changes its kind, and the side gets one
index more. -/
theorem Ports.grow?_spec {p p' inner : Ports} {side : Side} (h : p.grow? inner side = some p') :
    p.inlets ≤ p'.inlets ∧ p.outlets ≤ p'.outlets ∧ p.streamInlets ≤ p'.streamInlets ∧
    (∀ o < p.outlets, p'.outletKind o = p.outletKind o) ∧
    (p.streamInlets ≤ p.messageInlets → p'.streamInlets ≤ p'.messageInlets ∧
      ∀ s, Edit.nextPort p' s = Edit.nextPort p s + if s = side then 1 else 0) := by
  cases side with
  | inlet =>
    simp only [grow?] at h
    split at h
    · split at h
      · cases h
      · cases h
        refine ⟨by simp [inlets], by simp [outlets], by simp, fun _ _ => rfl, fun hle =>
          ⟨by simpa using hle, fun s => ?_⟩⟩
        cases s <;> simp [Edit.nextPort, inlets, outlets]
    · cases h
      refine ⟨by simp [inlets]; omega, by simp [outlets], by simp, fun _ _ => rfl, fun hle =>
        ⟨by simp; omega, fun s => ?_⟩⟩
      cases s <;> simp [Edit.nextPort, inlets, outlets]
      omega
  | outlet =>
    simp only [grow?] at h
    split at h
    · split at h
      · cases h
      · next hm =>
        cases h
        refine ⟨by simp [inlets], by simp [outlets], by simp, fun o ho => ?_, fun hle =>
          ⟨by simpa using hle, fun s => ?_⟩⟩
        · simp only [outlets] at ho
          have h₁ : o < p.streamOutlets := by omega
          have h₂ : o < p.streamOutlets + 1 := by omega
          simp [outletKind, h₁, h₂]
        · cases s <;> simp [Edit.nextPort, inlets, outlets]
          omega
    · cases h
      refine ⟨by simp [inlets], by simp [outlets], by simp, fun o ho => ?_, fun hle =>
        ⟨by simpa using hle, fun s => ?_⟩⟩
      · have h₁ : o < p.outlets + 1 := by omega
        simp only [outletKind]
        simp only [outlets] at ho h₁ ⊢
        simp [ho, ← Nat.add_assoc, h₁]
      · cases s <;> simp [Edit.nextPort, inlets, outlets]
        omega

namespace Graph

/-- The graph `g` after a node with the number `id` was added. -/
structure Added (g g' : Graph U) (id : UnitId) (n : Node U) : Prop where
  fresh : id.index = g.nodes.size
  node : g'.node? id = some n
  others : ∀ x, x ≠ id → g'.node? x = g.node? x
  connections : g'.connections = g.connections

theorem added_of_push {g g' : Graph U} {n : Node U} (hnodes : g'.nodes = g.nodes.push (some n))
    (hconnections : g'.connections = g.connections) :
    Added g g' ⟨g.nodes.size⟩ n where
  fresh := rfl
  node := by simp [node?_eq, hnodes]
  others x hx := by
    have : x.index ≠ g.nodes.size := fun he => hx (by cases x; simp_all)
    simp [node?_eq, hnodes, Array.getElem?_push, this]
  connections := hconnections

namespace Added

variable {g g' : Graph U} {id : UnitId} {n : Node U} (h : Added g g' id n)
include h

theorem ne_of_contains {x : UnitId} (hx : g.contains x = true) : x ≠ id := by
  rintro rfl
  have := lt_size_of_contains hx
  have := h.fresh
  omega

/-- A view of single nodes shows the new node, and otherwise what it showed before. -/
theorem view {α : Type} (f : Option (Node U) → α) (x : UnitId) :
    f (g'.node? x) = if x = id then f (some n) else f (g.node? x) := by
  split
  · next hx => rw [hx, h.node]
  · next hx => rw [h.others x hx]

theorem contains (x : UnitId) : g'.contains x = if x = id then true else g.contains x :=
  h.view Option.isSome x

theorem owner? (x : UnitId) : g'.owner? x = if x = id then n.owner else g.owner? x :=
  h.view (·.bind Node.owner) x

theorem port? (x : UnitId) : g'.port? x = if x = id then n.port else g.port? x :=
  h.view (·.bind Node.port) x

theorem registration? (x : UnitId) :
    g'.registration? x = if x = id then n.registration else g.registration? x :=
  h.view (·.bind Node.registration) x

theorem handle? (x : UnitId) : g'.handle? x = if x = id then n.handle else g.handle? x :=
  h.view (·.bind Node.handle) x

theorem ports (x : UnitId) : g'.ports x = if x = id then n.ports else g.ports x :=
  h.view (fun m => (m.map Node.ports).getD {}) x

theorem isSubgraph (x : UnitId) :
    g'.isSubgraph x = if x = id then n.isSubgraph else g.isSubgraph x :=
  h.view (·.any Node.isSubgraph) x

/-- The number of the new node is not an end of any connection, or an owner. -/
theorem kindOf (hg : g.Wired) {c : Connection} (hc : c ∈ g.connections) :
    g'.kindOf c = g.kindOf c := by
  simp [Graph.kindOf, h.ports, h.ne_of_contains (hg.source c hc)]

theorem wired (hg : g.Wired) : g'.Wired := by
  have hs : ∀ c ∈ g.connections, c.source ≠ id := fun c hc => h.ne_of_contains (hg.source c hc)
  have hd : ∀ c ∈ g.connections, c.dest ≠ id := fun c hc => h.ne_of_contains (hg.dest c hc)
  have hstreams : ∀ x y, g'.Streams x y → g.Streams x y := by
    rintro x y ⟨c, hc, hk, hxy⟩
    rw [h.connections] at hc
    exact ⟨c, hc, (h.kindOf hg hc) ▸ hk, hxy⟩
  constructor <;> (try rw [h.connections])
  · exact fun c hc => by simp [h.contains, hg.source c hc]
  · exact fun c hc => by simp [h.contains, hg.dest c hc]
  · exact fun c hc => by simpa [h.owner?, hs c hc, hd c hc] using hg.level c hc
  · exact fun c hc => by simpa [h.ports, hs c hc] using hg.outlet c hc
  · exact fun c hc => by simpa [h.ports, hd c hc] using hg.inlet c hc
  · exact fun c hc hk => by
      simpa [h.ports, hd c hc] using hg.streamInlet c hc ((h.kindOf hg hc) ▸ hk)
  · exact hg.once
  · exact fun x hx => hg.acyclic x (Relation.TransGen.mono hstreams _ _ hx)

theorem nested (hg : g.Nested) (howner : ∀ o, n.owner = some o → g.isSubgraph o = true)
    (hport : n.port = none) (hinlets : n.isSubgraph = true → n.ports = {}) : g'.Nested := by
  have hne : ∀ {x}, g.isSubgraph x = true → x ≠ id := fun hx =>
    h.ne_of_contains (contains_of_isSubgraph hx)
  have hcases : ∀ {x o}, g'.owner? x = some o →
      (x = id ∧ n.owner = some o) ∨ (x ≠ id ∧ g.owner? x = some o) := by
    intro x o hx
    rw [h.owner?] at hx
    split at hx
    · next he => exact .inl ⟨he, hx⟩
    · next he => exact .inr ⟨he, hx⟩
  have hsub : ∀ {x o}, g'.owner? x = some o → g.isSubgraph o = true := by
    intro x o hx
    rcases hcases hx with ⟨-, hx⟩ | ⟨-, hx⟩
    · exact howner o hx
    · exact hg.holder hx
  have hport' : ∀ {x p}, g'.port? x = some p → x ≠ id ∧ g.port? x = some p := by
    intro x p hx
    rw [h.port?] at hx
    split at hx
    · simp [hport] at hx
    · next he => exact ⟨he, hx⟩
  have howner' : ∀ {x o}, x ≠ id → g'.owner? x = some o → g.owner? x = some o := by
    intro x o hne hx
    rwa [h.owner?, if_neg hne] at hx
  constructor
  · intro x o hx
    rcases hcases hx with ⟨rfl, -⟩ | ⟨-, hx⟩
    · have := lt_size_of_contains (contains_of_isSubgraph (hsub hx))
      have := h.fresh
      omega
    · exact hg.older hx
  · intro x o hx
    rw [h.isSubgraph, if_neg (hne (hsub hx))]
    exact hsub hx
  · intro x p hx
    obtain ⟨hxid, hx⟩ := hport' hx
    obtain ⟨o, ho⟩ := hg.portOwned hx
    exact ⟨o, by rw [h.owner?, if_neg hxid, ho]⟩
  · intro x p hx
    obtain ⟨hxid, hx⟩ := hport' hx
    rw [h.isSubgraph, if_neg hxid]
    exact hg.portUnit hx
  · intro x o side k ho hp
    obtain ⟨hxid, hp⟩ := hport' hp
    have ho := howner' hxid ho
    rw [h.ports, if_neg (hne (hg.holder ho))]
    exact hg.portIndex ho hp
  · intro x y o p hx hy hpx hpy
    obtain ⟨hxid, hpx⟩ := hport' hpx
    obtain ⟨hyid, hpy⟩ := hport' hpy
    exact hg.portOnce (howner' hxid hx) (howner' hyid hy) hpx hpy
  · intro x hx
    rw [h.isSubgraph] at hx
    rw [h.ports]
    split at hx
    · next he => simp [he, hinlets hx]
    · next hne =>
      rw [if_neg hne]
      exact hg.inlets hx

theorem registered (hg : g.Registered) (hunit : n.registration.isSome → n.isSubgraph = false)
    (hnames : match n.registration with
      | some role => g.names.register id role = .ok (n.handle, g'.names)
      | none => n.handle = none ∧ g'.names = g.names) : g'.Registered := by
  have hunseated : ∀ s, id ∉ g.names.seated s := by
    intro s hs
    obtain ⟨role, hrole, -⟩ := Option.map_eq_some_iff.1 (hg.seated.1 hs)
    obtain ⟨m, hm, -⟩ := Option.bind_eq_some_iff.1 hrole
    exact h.ne_of_contains (contains_iff.2 ⟨m, hm⟩) rfl
  have hsub : ∀ {x role}, g'.registration? x = some role → g'.isSubgraph x = false := by
    intro x role hx
    rw [h.registration?] at hx
    rw [h.isSubgraph]
    split at hx
    · next he => simp [he, hunit (by simp [hx])]
    · next he => simp [he, hg.unit hx]
  cases hr : n.registration with
  | none =>
    rw [hr] at hnames
    obtain ⟨-, hnames⟩ := hnames
    refine ⟨hnames ▸ hg.names, fun {x s} => ?_, fun {x role} hx => ?_, hsub⟩
    · rw [hnames, h.registration?]
      split
      · next he => simp [he, hr, hunseated]
      · exact hg.seated
    · rw [h.registration?] at hx
      rw [h.handle?, hnames]
      split at hx
      · simp [hr] at hx
      · next he =>
        rw [if_neg he]
        exact hg.handle hx
  | some role =>
    rw [hr] at hnames
    obtain ⟨hsound, hslot, hseated, hkeep⟩ := Names.register_eq hg.names hnames
    refine ⟨hsound, fun {x s} => ?_, fun {x role'} hx => ?_, hsub⟩
    · rw [hseated, h.registration?, List.mem_append]
      by_cases he : x = id
      · subst he
        by_cases hs : s = role.seat
        · simp [hr, hs]
        · simp [hr, hs, hunseated s, Ne.symm hs]
      · have hnot : x ∉ (if s = role.seat then [id] else []) := by split <;> simp [he]
        simp [he, hnot, hg.seated]
    · rw [h.registration?] at hx
      rw [h.handle?]
      split at hx
      · next he =>
        rw [hr] at hx
        cases hx
        rw [if_pos he, hslot]
      · next he =>
        have hx' : x ∈ g.names.seated role'.seat := hg.seated.2 (by simp [hx])
        rw [if_neg he, hg.handle hx, hkeep _ (List.ne_nil_of_mem hx')]

end Added
end Graph

namespace Edit

variable [Device U]

omit [Device U] in
theorem ofResult_eq_ok {α : Type} {r : Except Fault α} {a : α} {g g' : Graph U} :
    ofResult r g = .ok a g' ↔ r = .ok a ∧ g = g' := by
  cases r with
  | error f => simp [ofResult, throw, throwThe, MonadExceptOf.throw, EStateM.throw]
  | ok b =>
    constructor
    · rintro ⟨⟩
      exact ⟨rfl, rfl⟩
    · rintro ⟨⟨⟩, rfl⟩
      rfl

omit [Device U] in
theorem node_eq_ok {x : UnitId} {n : Node U} {g g' : Graph U} :
    node x g = .ok n g' ↔ g.node? x = some n ∧ g = g' := by
  rw [node, run_get_bind]
  cases h : g.node? x with
  | none => simp [refuse, throw, throwThe, MonadExceptOf.throw, EStateM.throw]
  | some m =>
    constructor
    · rintro ⟨⟩
      exact ⟨rfl, rfl⟩
    · rintro ⟨⟨⟩, rfl⟩
      rfl

omit [Device U] in
theorem node_of_contains {x : UnitId} {g : Graph U} (h : g.contains x = true) :
    ∃ n, g.node? x = some n ∧ node x g = .ok n g := by
  obtain ⟨n, hn⟩ := Graph.contains_iff.1 h
  exact ⟨n, hn, node_eq_ok.2 ⟨hn, rfl⟩⟩

/-- What adding a node does: the node is the last one, and its role is registered. -/
theorem insert_eq_ok {owner : Option UnitId} {body : Body U} {g g' : Graph U} {id : UnitId}
    (h : insert owner body g = .ok id g') :
    ∃ handle names,
      (match body.registration with
        | some role => g.names.register ⟨g.nodes.size⟩ role = .ok (handle, names)
        | none => handle = none ∧ names = g.names) ∧
      id = ⟨g.nodes.size⟩ ∧
      g' = { g with
        nodes := g.nodes.push (some
          { body, ports := body.ports, registration := body.registration, handle, owner })
        names, plan := none } := by
  unfold insert at h
  obtain ⟨_, _, ⟨⟩, h⟩ := run_bind_eq_ok.1 h
  dsimp only at h
  cases hr : body.registration with
  | none =>
    simp only [hr, pure_bind] at h
    obtain ⟨_, _, hroom, h⟩ := run_bind_eq_ok.1 h
    obtain ⟨-, rfl⟩ := ofResult_eq_ok.1 hroom
    cases h
    exact ⟨none, g.names, ⟨rfl, rfl⟩, rfl, rfl⟩
  | some role =>
    simp only [hr] at h
    obtain ⟨⟨handle, names⟩, _, hreg, h⟩ := run_bind_eq_ok.1 h
    obtain ⟨hnames, rfl⟩ := ofResult_eq_ok.1 hreg
    obtain ⟨_, _, hroom, h⟩ := run_bind_eq_ok.1 h
    obtain ⟨-, rfl⟩ := ofResult_eq_ok.1 hroom
    cases h
    exact ⟨handle, names, hnames, rfl, rfl⟩

/-- A node that is added is there, and so is every other one still. -/
theorem contains_insert {owner : Option UnitId} {body : Body U} {g g' : Graph U} {id : UnitId}
    (h : insert owner body g = .ok id g') (x : UnitId) :
    g'.contains x = if x = id then true else g.contains x := by
  obtain ⟨handle, names, -, rfl, rfl⟩ := insert_eq_ok h
  have hadded : g.Added { g with
      nodes := g.nodes.push (some
        { body, ports := body.ports, registration := body.registration, handle, owner })
      names, plan := none } ⟨g.nodes.size⟩ _ := Graph.added_of_push rfl rfl
  exact hadded.contains x

/-- Adding a node keeps a graph sound. -/
theorem sound_insert {owner : Option UnitId} {body : Body U} {g g' : Graph U} {id : UnitId}
    (hg : g.Sound) (howner : ∀ o, owner = some o → g.isSubgraph o = true)
    (h : insert owner body g = .ok id g') :
    g'.Sound ∧ ∃ n, g.Added g' id n ∧ n.body = body ∧ n.ports = body.ports ∧ n.owner = owner ∧
      n.port = none := by
  obtain ⟨handle, names, hnames, rfl, rfl⟩ := insert_eq_ok h
  have hsub : ∀ n : Node U, n.body = body → n.isSubgraph = true → body = .subgraph := by
    rintro n rfl hn
    cases hb : n.body with
    | device u => simp [Node.isSubgraph, hb] at hn
    | subgraph => rfl
  have hadded : g.Added { g with
      nodes := g.nodes.push (some
        { body, ports := body.ports, registration := body.registration, handle, owner })
      names, plan := none } ⟨g.nodes.size⟩
      { body, ports := body.ports, registration := body.registration, handle, owner } :=
    Graph.added_of_push rfl rfl
  refine ⟨⟨hadded.wired hg.wired, hadded.nested hg.nested howner rfl ?_,
    hadded.registered hg.registered ?_ ?_⟩,
    _, hadded, rfl, rfl, rfl, rfl⟩
  · intro hn
    simp [hsub _ rfl hn, Body.ports]
  · intro hr
    cases body with
    | device u => rfl
    | subgraph => simp [Body.registration] at hr
  · cases hr : body.registration with
    | none => simpa [hr] using hnames
    | some role => simpa [hr] using hnames

end Edit

namespace Graph

/-- A graph after the newest node, without a port so far, became a port of its owner. -/
def stand (g : Graph U) (id o : UnitId) (grown : Ports) (port : Side × Nat) : Graph U :=
  (g.modifyNode o fun n => { n with ports := grown }).modifyNode id
    fun n => { n with port := some port }

section Stand

variable (g : Graph U) (id o : UnitId) (grown : Ports) (port : Side × Nat)

/-- A view of single nodes that shows neither ports nor port shows what it did before. -/
theorem view_stand {α : Type} (f : Node U → α)
    (hf : ∀ n p q, f { n with ports := p, port := q } = f n) (x : UnitId) :
    ((g.stand id o grown port).node? x).map f = (g.node? x).map f := by
  simp only [stand, node?_modifyNode]
  cases g.node? x with
  | none => split <;> split <;> rfl
  | some n =>
    split <;> split
    · exact congrArg some (hf n grown (some port))
    · exact congrArg some (hf n n.ports (some port))
    · exact congrArg some (hf n grown n.port)
    · rfl

theorem contains_stand (x : UnitId) :
    (g.stand id o grown port).contains x = g.contains x := by
  simpa [contains] using congrArg Option.isSome
    (g.view_stand id o grown port (fun _ => ()) (fun _ _ _ => rfl) x)

theorem owner?_stand (x : UnitId) : (g.stand id o grown port).owner? x = g.owner? x := by
  simpa [owner?, Option.bind_map, Function.comp_def] using congrArg (·.bind fun p => p)
    (g.view_stand id o grown port Node.owner (fun _ _ _ => rfl) x)

theorem registration?_stand (x : UnitId) :
    (g.stand id o grown port).registration? x = g.registration? x := by
  simpa [registration?, Option.bind_map, Function.comp_def] using congrArg (·.bind fun p => p)
    (g.view_stand id o grown port Node.registration (fun _ _ _ => rfl) x)

theorem handle?_stand (x : UnitId) : (g.stand id o grown port).handle? x = g.handle? x := by
  simpa [handle?, Option.bind_map, Function.comp_def] using congrArg (·.bind fun p => p)
    (g.view_stand id o grown port Node.handle (fun _ _ _ => rfl) x)

theorem isSubgraph_stand (x : UnitId) :
    (g.stand id o grown port).isSubgraph x = g.isSubgraph x := by
  simpa [isSubgraph, Option.any_map, Function.comp_def] using congrArg (·.any fun p => p)
    (g.view_stand id o grown port Node.isSubgraph (fun _ _ _ => rfl) x)

theorem port?_stand (hid : g.contains id = true) (x : UnitId) :
    (g.stand id o grown port).port? x = if x = id then some port else g.port? x := by
  obtain ⟨m, hm⟩ := contains_iff.1 hid
  simp only [stand, port?, node?_modifyNode]
  by_cases hx : x = id
  · subst hx
    simp only [hm, if_true]
    split <;> rfl
  · simp only [hx, if_false]
    split <;> cases g.node? x <;> rfl

theorem ports_stand (ho : g.contains o = true) (x : UnitId) :
    (g.stand id o grown port).ports x = if x = o then grown else g.ports x := by
  obtain ⟨m, hm⟩ := contains_iff.1 ho
  simp only [stand, ports, node?_modifyNode]
  by_cases hx : x = o
  · subst hx
    simp only [hm, if_true]
    split <;> rfl
  · simp only [hx, if_false]
    split <;> cases g.node? x <;> rfl

end Stand

/-- Becoming a port keeps a graph sound. -/
theorem sound_stand {g : Graph U} (hg : g.Sound) {id o : UnitId}
    (ho : g.owner? id = some o) (hunit : g.isSubgraph id = false) (hport : g.port? id = none)
    {grown inner : Ports} {side : Side} (hgrow : (g.ports o).grow? inner side = some grown) :
    (g.stand id o grown (side, Edit.nextPort (g.ports o) side)).Sound := by
  obtain ⟨hin, hout, hsin, hkind, hside⟩ := Ports.grow?_spec hgrow
  have hsub := hg.nested.holder ho
  obtain ⟨hsm, hnext⟩ := hside (hg.nested.inlets hsub)
  have hid := contains_of_owner? ho
  have hoc := contains_of_isSubgraph hsub
  generalize hg' : g.stand id o grown (side, Edit.nextPort (g.ports o) side) = g'
  have hconn : g'.connections = g.connections := by subst hg'; rfl
  have hcontains : ∀ x, g'.contains x = g.contains x := hg' ▸ g.contains_stand id o grown _
  have howner : ∀ x, g'.owner? x = g.owner? x := hg' ▸ g.owner?_stand id o grown _
  have hissub : ∀ x, g'.isSubgraph x = g.isSubgraph x := hg' ▸ g.isSubgraph_stand id o grown _
  have hreg : ∀ x, g'.registration? x = g.registration? x :=
    hg' ▸ g.registration?_stand id o grown _
  have hhandle : ∀ x, g'.handle? x = g.handle? x := hg' ▸ g.handle?_stand id o grown _
  have hports : ∀ x, g'.ports x = if x = o then grown else g.ports x :=
    hg' ▸ g.ports_stand id o grown _ hoc
  have hport' : ∀ x, g'.port? x =
      if x = id then some (side, Edit.nextPort (g.ports o) side) else g.port? x :=
    hg' ▸ g.port?_stand id o grown _ hid
  have hkind' : ∀ c ∈ g.connections, g'.kindOf c = g.kindOf c := by
    intro c hc
    simp only [kindOf, hports]
    split
    · next he => rw [he, hkind _ (he ▸ hg.wired.outlet c hc)]
    · rfl
  have hstreams : ∀ x y, g'.Streams x y → g.Streams x y := by
    rintro x y ⟨c, hc, hk, hxy⟩
    rw [hconn] at hc
    exact ⟨c, hc, hkind' c hc ▸ hk, hxy⟩
  have hnames : g'.names = g.names := by subst hg'; rfl
  refine ⟨?_, ?_, ?_⟩
  · constructor <;> (try rw [hconn])
    · exact fun c hc => hcontains _ ▸ hg.wired.source c hc
    · exact fun c hc => hcontains _ ▸ hg.wired.dest c hc
    · exact fun c hc => by simpa [howner] using hg.wired.level c hc
    · intro c hc
      have := hg.wired.outlet c hc
      rw [hports]
      split <;> simp_all
      omega
    · intro c hc
      have := hg.wired.inlet c hc
      rw [hports]
      split <;> simp_all
      omega
    · intro c hc hk
      have := hg.wired.streamInlet c hc (hkind' c hc ▸ hk)
      rw [hports]
      split <;> simp_all
      omega
    · exact hg.wired.once
    · exact fun x hx => hg.wired.acyclic x (Relation.TransGen.mono hstreams _ _ hx)
  · have hold : ∀ {x p}, x ≠ id → g'.port? x = some p → g.port? x = some p := by
      intro x p hne hx
      rwa [hport', if_neg hne] at hx
    have hfresh : ∀ {x k}, g.owner? x = some o → g.port? x = some (side, k) →
        k < Edit.nextPort (g.ports o) side := fun hx hp => hg.nested.portIndex hx hp
    constructor
    · exact fun hx => hg.nested.older (howner _ ▸ hx)
    · exact fun hx => hissub _ ▸ hg.nested.holder (howner _ ▸ hx)
    · intro x p hx
      rw [howner]
      by_cases hne : x = id
      · exact ⟨o, hne ▸ ho⟩
      · exact hg.nested.portOwned (hold hne hx)
    · intro x p hx
      rw [hissub]
      by_cases hne : x = id
      · exact hne ▸ hunit
      · exact hg.nested.portUnit (hold hne hx)
    · intro x o' s k hx hp
      rw [howner] at hx
      rw [hports]
      by_cases hne : x = id
      · subst hne
        rw [hport', if_pos rfl] at hp
        cases hp
        rw [ho] at hx
        cases hx
        simp [hnext]
      · have := hg.nested.portIndex hx (hold hne hp)
        split
        · next he =>
          rw [hnext, ← he]
          omega
        · exact this
    · intro x y o' p hx hy hpx hpy
      rw [howner] at hx hy
      by_cases hxid : x = id
      · by_cases hyid : y = id
        · rw [hxid, hyid]
        · -- the index of the new port is larger than those of the older ones
          subst hxid
          rw [hport', if_pos rfl] at hpx
          cases hpx
          rw [ho] at hx
          cases hx
          exact absurd (hfresh hy (hold hyid hpy)) (Nat.lt_irrefl _)
      · by_cases hyid : y = id
        · subst hyid
          rw [hport', if_pos rfl] at hpy
          cases hpy
          rw [ho] at hy
          cases hy
          exact absurd (hfresh hx (hold hxid hpx)) (Nat.lt_irrefl _)
        · exact hg.nested.portOnce hx hy (hold hxid hpx) (hold hyid hpy)
    · intro x hx
      rw [hissub] at hx
      rw [hports]
      split
      · exact hsm
      · exact hg.nested.inlets hx
  · constructor
    · exact hnames ▸ hg.registered.names
    · intro x s
      rw [hnames, hreg]
      exact hg.registered.seated
    · intro x role hx
      rw [hhandle, hnames]
      exact hg.registered.handle (hreg _ ▸ hx)
    · exact fun hx => hissub _ ▸ hg.registered.unit (hreg _ ▸ hx)

end Graph

namespace Edit

variable [Device U]

/-- Adding a node inside a subgraph: it is added, and may become the next port of its owner. -/
theorem insertInto_eq_ok {owner id : UnitId} {body : Body U} {g g' : Graph U}
    (h : insertInto owner body g = .ok id g') :
    ∃ holder g₁, g.node? owner = some holder ∧ holder.isSubgraph = true ∧
      insert (some owner) body g = .ok id g₁ ∧
      (body.side = none ∧ g' = g₁ ∨
        ∃ side grown, body.side = some side ∧ holder.ports.grow? body.ports side = some grown ∧
          g' = g₁.stand id owner grown (side, nextPort holder.ports side)) := by
  unfold insertInto at h
  obtain ⟨holder, _, hnode, h⟩ := run_bind_eq_ok.1 h
  obtain ⟨hholder, rfl⟩ := node_eq_ok.1 hnode
  cases hsub : holder.isSubgraph with
  | false =>
    simp only [hsub] at h
    cases h
  | true =>
    simp only [hsub, Bool.not_true, Bool.false_eq_true, if_false, pure_bind] at h
    cases hside : body.side with
    | none =>
      simp only [hside] at h
      obtain ⟨id', g₁, hins, h⟩ := run_bind_eq_ok.1 h
      obtain ⟨_, _, hnode, h⟩ := run_bind_eq_ok.1 h
      obtain ⟨-, rfl⟩ := node_eq_ok.1 hnode
      cases h
      exact ⟨holder, g', hholder, hsub, hins, .inl ⟨rfl, rfl⟩⟩
    | some side =>
      simp only [hside] at h
      cases hgrow : holder.ports.grow? body.ports side with
      | none =>
        simp only [hgrow] at h
        cases h
      | some grown =>
        simp only [hgrow] at h
        obtain ⟨id', g₁, hins, h⟩ := run_bind_eq_ok.1 h
        obtain ⟨_, _, hnode, h⟩ := run_bind_eq_ok.1 h
        obtain ⟨-, rfl⟩ := node_eq_ok.1 hnode
        rw [run_modify_bind] at h
        obtain ⟨_, _, hnode, h⟩ := run_bind_eq_ok.1 h
        obtain ⟨-, rfl⟩ := node_eq_ok.1 hnode
        cases h
        exact ⟨holder, g₁, hholder, hsub, hins, .inr ⟨side, grown, rfl, hgrow, rfl⟩⟩

/-- Adding a node inside a subgraph keeps a graph sound. -/
theorem sound_insertInto {owner id : UnitId} {body : Body U} {g g' : Graph U} (hg : g.Sound)
    (h : insertInto owner body g = .ok id g') : g'.Sound := by
  obtain ⟨holder, g₁, hholder, hsub, hins, h⟩ := insertInto_eq_ok h
  have howner : ∀ o, some owner = some o → g.isSubgraph o = true := by
    rintro o ⟨⟩
    simp [Graph.isSubgraph, hholder, hsub]
  obtain ⟨hg₁, n, hadded, hbody, -, hno, hnp⟩ := sound_insert hg howner hins
  rcases h with ⟨-, rfl⟩ | ⟨side, grown, hside, hgrow, rfl⟩
  · exact hg₁
  · have hne : owner ≠ id := hadded.ne_of_contains (Graph.contains_iff.2 ⟨holder, hholder⟩)
    have hports : g₁.ports owner = holder.ports := by
      rw [hadded.ports, if_neg hne]
      simp [Graph.ports, hholder]
    rw [← hports]
    refine Graph.sound_stand hg₁ ?_ ?_ ?_ (?_ : (g₁.ports owner).grow? body.ports side = some grown)
    · simp [hadded.owner?, hno]
    · rw [hadded.isSubgraph, if_pos rfl]
      cases body with
      | device u => simp [Node.isSubgraph, hbody]
      | subgraph => simp [Body.side] at hside
    · simp [hadded.port?, hnp]
    · rw [hports]
      exact hgrow

/-- Adding a node anywhere keeps a graph sound. -/
theorem sound_add {owner : Option UnitId} {body : Body U} {g g' : Graph U} {id : UnitId}
    (hg : g.Sound) (h : add owner body g = .ok id g') : g'.Sound := by
  cases owner with
  | none => exact (sound_insert hg (by simp) h).1
  | some owner => exact sound_insertInto hg h

/-- A new node is made of what was asked for. -/
theorem node?_add {owner : Option UnitId} {body : Body U} {g g' : Graph U} {id : UnitId}
    (h : add owner body g = .ok id g') : id.index = g.nodes.size ∧
      ∃ n, g'.node? id = some n ∧ n.body = body ∧ n.registration = body.registration := by
  have hinsert : ∀ {owner g₁}, insert owner body g = .ok id g₁ → id.index = g.nodes.size ∧
      ∃ n, g₁.node? id = some n ∧ n.body = body ∧ n.registration = body.registration := by
    intro owner g₁ h
    obtain ⟨handle, names, -, rfl, rfl⟩ := insert_eq_ok h
    refine ⟨rfl, { body, ports := body.ports, registration := body.registration, handle, owner }, ?_,
      rfl, rfl⟩
    rw [Graph.node?_eq, Array.getElem?_push_size]
    rfl
  cases owner with
  | none => exact hinsert h
  | some owner =>
    obtain ⟨holder, g₁, -, -, hins, h⟩ := insertInto_eq_ok h
    obtain ⟨hid, n, hn, hbody, hrole⟩ := hinsert hins
    rcases h with ⟨-, rfl⟩ | ⟨side, grown, -, -, rfl⟩
    · exact ⟨hid, n, hn, hbody, hrole⟩
    · have hview := Graph.view_stand g₁ id owner grown (side, nextPort holder.ports side)
        (fun n => (n.body, n.registration)) (fun _ _ _ => rfl) id
      rw [hn] at hview
      obtain ⟨n', hn', hsame⟩ := Option.map_eq_some_iff.1 hview
      obtain ⟨hbody', hrole'⟩ := Prod.mk.inj hsame
      exact ⟨hid, n', hn', hbody'.trans hbody, hrole'.trans hrole⟩

end Edit
end Patchbay
