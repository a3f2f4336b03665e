import Patchbay.Proofs.Graph.Editing
import Patchbay.Proofs.Names.Roster

/-!
# Who is listed, and who is forgotten

In every graph the registry lists the nodes that have a role, each once and at its own seat
(`Enrolled`). A node is removed with all that lies within it, whichever way the nodes inside are
listed (`mem_contentsFirst`, `mem_descendants`), and nothing in the graph mentions any of them
afterwards (`forgets_of_remove`).
-/

namespace Patchbay

open Relation

variable {U : Type}

namespace Graph

/-- That the registry lists exactly the nodes that have a role, each once and at its own seat. -/
structure Enrolled (g : Graph U) : Prop where
  once : g.names.roster.Nodup
  listed : ∀ x, x ∈ g.names.roster ↔ ∃ role, g.registration? x = some role
  seated : ∀ x s, x ∈ g.names.seated s ↔ (g.registration? x).map Registration.seat = some s
  present : ∀ x ∈ g.names.roster, g.contains x = true

/-- That nothing in a graph mentions a number: there is no node with it, and no owner, end of a
connection, entry of the registry or step of a plan is that number. -/
structure Forgets (g : Graph U) (x : UnitId) : Prop where
  gone : g.contains x = false
  owner : ∀ y, g.owner? y ≠ some x
  ends : ∀ c ∈ g.connections, c.source ≠ x ∧ c.dest ≠ x
  roster : x ∉ g.names.roster
  plan : ∀ plan, g.plan = some plan → x ∉ plan.units

variable {g g' : Graph U}

theorem contains_of_registration? {x : UnitId} {role : Registration}
    (h : g.registration? x = some role) : g.contains x = true := by
  obtain ⟨n, hn, -⟩ := Option.bind_eq_some_iff.1 h
  exact contains_iff.2 ⟨n, hn⟩

/-- Nobody has two seats, so nobody is listed twice. -/
theorem enrolled_of_once (hg : g.Registered) (ho : g.names.Once) : g.Enrolled := by
  have hlisted : ∀ x, x ∈ g.names.roster ↔ ∃ role, g.registration? x = some role := by
    intro x
    rw [Names.mem_roster hg.names]
    constructor
    · rintro ⟨s, hs⟩
      obtain ⟨role, hrole, -⟩ := Option.map_eq_some_iff.1 (hg.seated.1 hs)
      exact ⟨role, hrole⟩
    · rintro ⟨role, hrole⟩
      exact ⟨role.seat, hg.seated.2 (by rw [hrole]; rfl)⟩
  refine ⟨Names.nodup_roster hg.names ho fun x s s' hs hs' => ?_, hlisted, fun _ _ => hg.seated,
    fun x hx => ?_⟩
  · exact Option.some.inj ((hg.seated.1 hs).symm.trans (hg.seated.1 hs'))
  · obtain ⟨role, hrole⟩ := (hlisted x).1 hx
    exact contains_of_registration? hrole

/-- What is not there has no seat. -/
theorem not_seated_of_missing (hg : g.Registered) {x : UnitId} (hx : g.contains x = false)
    (s : Seat) : x ∉ g.names.seated s := by
  intro hs
  obtain ⟨role, hrole, -⟩ := Option.map_eq_some_iff.1 (hg.seated.1 hs)
  rw [contains_of_registration? hrole] at hx
  cases hx

/-- What is not there is mentioned nowhere. -/
theorem Sound.forgets (hg : g.Sound) (hplan : g.plan = none) {x : UnitId}
    (hx : g.contains x = false) : g.Forgets x where
  gone := hx
  owner y hy := by
    rw [contains_of_isSubgraph (hg.nested.holder hy)] at hx
    cases hx
  ends c hc := by
    constructor
    · rintro rfl
      rw [hg.wired.source c hc] at hx
      cases hx
    · rintro rfl
      rw [hg.wired.dest c hc] at hx
      cases hx
  roster hmem := by
    obtain ⟨s, hs⟩ := (Names.mem_roster hg.registered.names).1 hmem
    exact not_seated_of_missing hg.registered hx s hs
  plan plan h := by
    rw [hplan] at h
    cases h

/-! ## What lies within a node -/

theorem within_iff {x y : UnitId} :
    g.Within x y ↔ x = y ∨ ∃ c, g.owner? c = some y ∧ g.Within x c := by
  constructor
  · intro h
    rcases ReflTransGen.cases_tail h with h | ⟨c, h, hc⟩
    · exact .inl h.symm
    · exact .inr ⟨c, hc, h⟩
  · rintro (rfl | ⟨c, hc, h⟩)
    · exact .refl g x
    · exact h.tail hc

/-- The nodes listed behind their contents are those within the last one. -/
theorem mem_contentsFirst (hg : g.Nested) {id x : UnitId} :
    x ∈ g.contentsFirst id ↔ g.Within x id := by
  induction id using Graph.contentsFirst.induct g with
  | case1 id ih =>
    rw [contentsFirst, List.mem_append, List.mem_singleton, List.mem_flatMap, within_iff, or_comm]
    refine or_congr_right ⟨?_, ?_⟩
    · rintro ⟨c, -, hc⟩
      exact ⟨c, hg.mem_children.1 c.property, (ih c).1 hc⟩
    · rintro ⟨c, hc, hx⟩
      have hmem := hg.mem_children.2 hc
      exact ⟨⟨c, hmem⟩, List.mem_attach .., (ih ⟨c, hmem⟩).2 hx⟩

/-- The nodes listed before their contents are those within the first one. -/
theorem mem_descendants (hg : g.Nested) {id x : UnitId} (hid : g.contains id = true) :
    x ∈ g.descendants id ↔ g.Within x id := by
  induction id using Graph.descendants.induct g with
  | case1 id _ ih =>
    rw [descendants, if_pos hid, List.mem_cons, List.mem_flatMap, within_iff]
    refine or_congr_right ⟨?_, ?_⟩
    · rintro ⟨c, -, hc⟩
      have howner := hg.mem_children.1 c.property
      exact ⟨c, howner, (ih c (contains_of_owner? howner)).1 hc⟩
    · rintro ⟨c, hc, hx⟩
      have hmem := hg.mem_children.2 hc
      exact ⟨⟨c, hmem⟩, List.mem_attach .., (ih ⟨c, hmem⟩ (contains_of_owner? hc)).2 hx⟩
  | case2 id hnot => exact absurd hid hnot

end Graph

namespace Edit

variable [Device U] {g g' : Graph U}

/-! ## Edits of the registry -/

theorem once_insert {owner : Option UnitId} {body : Body U} {id : UnitId} (hg : g.Sound)
    (ho : g.names.Once) (h : insert owner body g = .ok id g') : g'.names.Once := by
  obtain ⟨handle, names, hnames, rfl, rfl⟩ := insert_eq_ok h
  cases hr : body.registration with
  | none =>
    rw [hr] at hnames
    exact hnames.2 ▸ ho
  | some role =>
    rw [hr] at hnames
    have hmissing : g.contains ⟨g.nodes.size⟩ = false := by
      refine Bool.eq_false_iff.2 fun hc => ?_
      exact absurd (Graph.lt_size_of_contains hc) (Nat.lt_irrefl _)
    exact Names.once_register hg.registered.names ho hnames
      (Graph.not_seated_of_missing hg.registered hmissing)

theorem once_add {owner : Option UnitId} {body : Body U} {id : UnitId} (hg : g.Sound)
    (ho : g.names.Once) (h : add owner body g = .ok id g') : g'.names.Once := by
  cases owner with
  | none => exact once_insert hg ho h
  | some owner =>
    obtain ⟨holder, g₁, -, -, hins, h⟩ := insertInto_eq_ok h
    have hg₁ := once_insert hg ho hins
    rcases h with ⟨-, rfl⟩ | ⟨side, grown, -, -, rfl⟩ <;> exact hg₁

/-- Adding a node leaves those that are there. -/
theorem contains_add {owner : Option UnitId} {body : Body U} {id x : UnitId}
    (h : add owner body g = .ok id g') (hx : g.contains x = true) : g'.contains x = true := by
  have hinsert : ∀ {owner : Option UnitId} {g₁ : Graph U}, insert owner body g = .ok id g₁ →
      g₁.contains x = true := by
    intro owner g₁ h
    rw [contains_insert h, hx]
    split <;> rfl
  cases owner with
  | none => exact hinsert h
  | some owner =>
    obtain ⟨holder, g₁, -, -, hins, h⟩ := insertInto_eq_ok h
    rcases h with ⟨-, rfl⟩ | ⟨side, grown, -, -, rfl⟩
    · exact hinsert hins
    · rw [Graph.contains_stand]
      exact hinsert hins

theorem contains_connect {c : Connection} {kind : ConnectionKind} (h : connect c g = .ok kind g')
    (x : UnitId) : g'.contains x = g.contains x := by
  obtain ⟨-, -, -, rfl⟩ := connect_eq_ok h
  split
  · rw [(sameShape_tell ..).contains]
    rfl
  · rfl

theorem contains_disconnect {c : Connection} (h : disconnect c g = .ok ⟨⟩ g') (x : UnitId) :
    g'.contains x = g.contains x := by
  obtain ⟨-, rfl⟩ := disconnect_eq_ok h
  rw [Graph.contains_eq_shape, (dropped_drop g c).shape, ← Graph.contains_eq_shape]

theorem names_connect {c : Connection} {kind : ConnectionKind} (h : connect c g = .ok kind g') :
    g'.names = g.names := by
  obtain ⟨-, -, -, rfl⟩ := connect_eq_ok h
  split <;> rfl

theorem names_disconnect {c : Connection} (h : disconnect c g = .ok ⟨⟩ g') :
    g'.names = g.names := by
  obtain ⟨-, rfl⟩ := disconnect_eq_ok h
  exact (dropped_drop g c).names

theorem once_dropNode (id : UnitId) (hg : g.names.Sound) (ho : g.names.Once) :
    (dropNode g id).names.Sound ∧ (dropNode g id).names.Once := by
  rw [names_dropNode]
  split
  · exact ⟨(Names.unregister_eq hg id _).1, Names.once_unregister hg ho id _⟩
  · exact ⟨hg, ho⟩

theorem once_foldl_dropNode (l : List UnitId) (hg : g.names.Sound) (ho : g.names.Once) :
    (l.foldl dropNode g).names.Once := by
  induction l generalizing g with
  | nil => exact ho
  | cons id l ih =>
    obtain ⟨hg, ho⟩ := once_dropNode id hg ho
    rw [List.foldl_cons]
    exact ih hg ho

theorem once_remove {id : UnitId} {body : Body U} (hg : g.Sound) (ho : g.names.Once)
    (h : remove id g = .ok body g') : g'.names.Once := by
  obtain ⟨-, rfl⟩ := remove_eq_ok h
  exact once_foldl_dropNode _ hg.registered.names ho

/-! ## Removing -/

/-- Exactly what lies within a node goes with it. -/
theorem contains_of_remove {id : UnitId} {body : Body U} (hg : g.Sound)
    (h : remove id g = .ok body g') (x : UnitId) :
    g'.contains x = true ↔ g.contains x = true ∧ ¬ g.Within x id := by
  obtain ⟨-, rfl⟩ := remove_eq_ok h
  rw [Graph.contains_eq_shape, shape_foldl_dropNode, Graph.contains_eq_shape,
    ← Graph.mem_contentsFirst hg.nested]
  split
  · next hx => simp [hx]
  · next hx => simp [hx]

/-- Nothing in a graph mentions what was removed from it. -/
theorem forgets_of_remove {id x : UnitId} {body : Body U} (hg : g.Sound)
    (h : remove id g = .ok body g') (hx : g.Within x id) : g'.Forgets x := by
  refine (sound_remove hg h).forgets ((proper_remove id).outdates h).1 (Bool.eq_false_iff.2 ?_)
  exact fun hc => ((contains_of_remove hg h x).1 hc).2 hx

end Edit
end Patchbay
