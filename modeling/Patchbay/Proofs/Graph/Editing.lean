import Patchbay.Proofs.Graph.Removing

/-!
# What every edit is like

An edit that is accepted keeps a graph sound, outdates its plan and leaves its buffers alone; one
that is refused changes nothing (`Proper`).
-/

namespace Patchbay

variable {U : Type} [Device U] {α β : Type}

/-- That an edit is accepted or refused as edits should be. -/
structure Edit.Proper (change : Edit U α) : Prop where
  sound : ∀ {g g' : Graph U} {a : α}, g.Sound → change g = .ok a g' → g'.Sound
  outdates : ∀ {g g' : Graph U} {a : α}, change g = .ok a g' → g'.plan = none ∧ g'.pool = g.pool
  refused : ∀ {g g' : Graph U} {why : GraphError}, change g = .error (.refused why) g' → g' = g

namespace Edit

/-- That a graph is outdated by an edit, or has not been changed by one that was refused. -/
abbrev Goes (g : Graph U) (good : α → Graph U → Prop) (r : EStateM.Result Failure (Graph U) α) :
    Prop := Yields (fun f g' => ∀ why, f = .refused why → g' = g) good r

omit [Device U] in
theorem goes_node (g : Graph U) (id : UnitId) :
    Goes g (fun n g' => g' = g ∧ g.node? id = some n) (node id g) := by
  rw [node, run_get_bind]
  cases hn : g.node? id with
  | none => exact fun _ _ => rfl
  | some n => exact ⟨rfl, rfl⟩

omit [Device U] in
/-- A broken rule is not a refusal. -/
theorem goes_ofResult (g g₁ : Graph U) (r : Except Fault α) :
    Goes g (fun _ g' => g' = g₁) (ofResult r g₁) := by
  cases r with
  | error f => exact fun _ h => by cases h
  | ok a => rfl

omit [Device U] in
theorem goes_refuse {g : Graph U} {why : GraphError} {good : α → Graph U → Prop} :
    Goes g good ((refuse why : Edit U α) g) := fun _ _ => rfl

/-- What an edit does to the plan and the pool. -/
def Outdated (g : Graph U) (_ : α) (g' : Graph U) : Prop := g'.plan = none ∧ g'.pool = g.pool

omit [Device U] in
theorem Outdated.proper {change : Edit U α}
    (hsound : ∀ {g g' : Graph U} {a : α}, g.Sound → change g = .ok a g' → g'.Sound)
    (h : ∀ g, Goes g (Outdated g) (change g)) : Proper change where
  sound := hsound
  outdates {g g' a} heq := (h g).of_ok heq
  refused {g g' why} heq := by
    have := h g
    rw [heq] at this
    exact this why rfl

theorem goes_insert (g : Graph U) (owner : Option UnitId) (body : Body U) :
    Goes g (Outdated g) (insert owner body g) := by
  unfold insert
  rw [run_get_bind]
  cases hr : body.registration with
  | none =>
    simp only [pure_bind]
    refine (goes_ofResult g g _).bind ?_
    rintro _ _ rfl
    exact ⟨rfl, rfl⟩
  | some role =>
    refine (goes_ofResult g g _).bind ?_
    rintro ⟨handle, names⟩ _ rfl
    refine (goes_ofResult _ _ _).bind ?_
    rintro _ _ rfl
    exact ⟨rfl, rfl⟩

theorem goes_insertInto (g : Graph U) (owner : UnitId) (body : Body U) :
    Goes g (Outdated g) (insertInto owner body g) := by
  unfold insertInto
  refine (goes_node g owner).bind ?_
  rintro holder g ⟨rfl, hholder⟩
  cases hsub : holder.isSubgraph with
  | false => exact goes_refuse
  | true =>
    simp only [Bool.not_true, Bool.false_eq_true, if_false]
    -- what is looked up behind the new node has been there before it
    have hinsert : Goes g (fun id g' => Outdated g id g' ∧ g'.contains owner = true ∧
        g'.contains id = true) (insert (some owner) body g) := by
      refine (goes_insert g _ body).and fun id g' h => ?_
      rw [contains_insert h, contains_insert h, if_pos rfl, Graph.contains_iff.2 ⟨holder, hholder⟩]
      exact ⟨ite_self _, rfl⟩
    cases hside : body.side with
    | none =>
      refine hinsert.bind fun id g' ⟨houtdated, howner, _⟩ => ?_
      obtain ⟨_, -, hnode⟩ := node_of_contains howner
      rw [run_bind, hnode]
      exact houtdated
    | some side =>
      cases hgrow : holder.ports.grow? body.ports side with
      | none =>
        simp only [hgrow]
        exact fun _ _ => rfl
      | some grown =>
        simp only [hgrow]
        refine hinsert.bind fun id g' ⟨houtdated, howner, hid⟩ => ?_
        obtain ⟨_, -, hnode⟩ := node_of_contains howner
        rw [run_bind, hnode]
        dsimp only
        rw [run_modify_bind]
        have hid' : (g'.modifyNode owner fun n => { n with ports := grown }).contains id = true := by
          simp only [Graph.contains, Graph.node?_modifyNode] at hid ⊢
          split
          · simpa using hid
          · exact hid
        obtain ⟨_, -, hnode'⟩ := node_of_contains hid'
        rw [run_bind, hnode']
        exact houtdated

theorem proper_add (owner : Option UnitId) (body : Body U) : Proper (add owner body) := by
  refine Outdated.proper sound_add fun g => ?_
  cases owner with
  | none => exact goes_insert g none body
  | some owner => exact goes_insertInto g owner body

omit [Device U] in
/-- What passes the checks joins nodes that are there. -/
theorem goes_validate (g : Graph U) (c : Connection) :
    Goes g (fun _ g' => g' = g ∧ g.contains c.source = true ∧ g.contains c.dest = true)
      (validate c g) := by
  unfold validate
  refine (goes_node g c.source).bind ?_
  rintro source g ⟨rfl, hsource⟩
  refine (goes_node g c.dest).bind ?_
  rintro dest g ⟨rfl, hdest⟩
  by_cases howner : source.owner = dest.owner
  · simp only [howner, ne_eq, not_true, if_false]
    cases hkind : source.ports.outletKind c.outlet with
    | none => exact goes_refuse
    | some kind =>
      by_cases hin : dest.ports.inlets ≤ c.inlet
      · simp only [hin, if_true]
        exact goes_refuse
      · simp only [hin, if_false]
        split
        · exact goes_refuse
        · exact ⟨rfl, Graph.contains_iff.2 ⟨_, hsource⟩, Graph.contains_iff.2 ⟨_, hdest⟩⟩
  · simp only [howner, ne_eq, not_false_eq_true, if_true]
    exact goes_refuse

theorem proper_connect (c : Connection) : Proper (connect (U := U) c) := by
  refine Outdated.proper sound_connect fun g => ?_
  unfold connect
  refine (goes_validate g c).bind ?_
  rintro kind g ⟨rfl, hsource, hdest⟩
  obtain ⟨_, -, hnode⟩ := node_of_contains hsource
  rw [run_get_bind, run_bind, hnode]
  dsimp only
  by_cases hnew : c ∈ g.connections
  · simp only [hnew, if_true]
    exact goes_refuse
  · simp only [hnew, if_false]
    by_cases hloop : kind = .stream ∧ streamsReach g c.dest c.source
    · simp only [hloop, and_self, if_true]
      exact goes_refuse
    · simp only [hloop, if_false]
      rw [run_modify_bind]
      have hdest' : Graph.contains { g with connections := g.connections ++ [c], plan := none }
          c.dest = true := hdest
      obtain ⟨_, -, hnode'⟩ := node_of_contains hdest'
      rw [run_bind, hnode']
      dsimp only
      split
      · exact ⟨rfl, rfl⟩
      · exact ⟨rfl, rfl⟩

theorem drop_outdated (g : Graph U) (c : Connection) :
    (drop g c).plan = none ∧ (drop g c).pool = g.pool := by
  unfold drop
  dsimp only
  split <;> exact ⟨rfl, rfl⟩

theorem proper_disconnect (c : Connection) : Proper (disconnect (U := U) c) := by
  refine Outdated.proper sound_disconnect fun g => ?_
  unfold disconnect
  refine (goes_node g c.dest).bind ?_
  rintro dest _ ⟨rfl, -⟩
  refine (goes_node _ c.source).bind ?_
  rintro source _ ⟨rfl, -⟩
  rw [run_get_bind]
  split
  · exact goes_refuse
  · exact drop_outdated ..

theorem foldl_drop_pool (cs : List Connection) (g : Graph U) : (cs.foldl drop g).pool = g.pool := by
  induction cs generalizing g with
  | nil => rfl
  | cons c cs ih => exact (ih _).trans (drop_outdated g c).2

theorem dropNode_pool (g : Graph U) (id : UnitId) : (dropNode g id).pool = g.pool := by
  rw [dropNode, vacate, cutOff]
  exact foldl_drop_pool _ g

theorem foldl_dropNode_pool (l : List UnitId) (g : Graph U) : (l.foldl dropNode g).pool = g.pool := by
  induction l generalizing g with
  | nil => rfl
  | cons x l ih => rw [List.foldl_cons, ih, dropNode_pool]

/-- The node itself goes last, and outdates the plan even when it was connected to nothing. -/
theorem contentsFirst_outdates (g : Graph U) (id : UnitId) :
    ((g.contentsFirst id).foldl dropNode g).plan = none := by
  rw [Graph.contentsFirst, List.foldl_append]
  rfl

theorem proper_remove (id : UnitId) : Proper (remove (U := U) id) := by
  refine Outdated.proper sound_remove fun g => ?_
  cases hn : g.node? id with
  | none =>
    rw [remove, run_bind, node, run_get_bind, hn]
    exact goes_refuse
  | some n =>
    by_cases hport : n.port.isSome ∧ n.owner.any g.contains
    · rw [remove, run_bind, node_eq_ok.2 ⟨hn, rfl⟩]
      dsimp only
      rw [run_get_bind]
      simp only [hport]
      exact goes_refuse
    · obtain ⟨body, -, h⟩ := remove_eq hn hport
      rw [h]
      exact ⟨contentsFirst_outdates g id, foldl_dropNode_pool ..⟩

end Edit
end Patchbay
