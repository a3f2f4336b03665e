import Patchbay.Proofs.Graph.Enrolling
import Patchbay.Proofs.Planning.Ending
import Patchbay.Proofs.Planning.Schedule

/-!
# A subgraph is finished as a whole

The walk that makes a plan is watched: each visit, as it begins and as it ends, looks at every
subgraph that has been placed, and stops the walk if something inside it has not (`visitWatched`).
A subgraph is marked as placed within a visit, and the next thing to happen is that this visit ends or
another begins, so the watch sees it in the very state that it was finished in. The watched walk
comes to the same as the walk itself (`fullDraftWatched_eq`): the watch never has a reason to stop it.
-/

namespace Patchbay

variable {U : Type} [Device U]

namespace Graph

/-! ## The watch -/

/-- Whether all that lies inside a placed node is placed. -/
def isComplete (g : Graph U) (d : Draft) : Bool :=
  g.ids.all fun s =>
    d.visit s != .placed || (g.descendants s).all fun x => d.visit x == .placed

/-- Stops the walk if something inside a placed node is not placed. -/
def watch (g : Graph U) (d : Draft) : Except Fault Draft :=
  if g.isComplete d then .ok d else .error .endless

/-- Visits the owner of a node if it has not been reached. -/
def reachOwner (g : Graph U) (visit : UnitId → Draft → Except Fault Draft) (n : Node U) (d : Draft) :
    Except Fault Draft :=
  match n.owner with
  | some owner => if g.isUnvisited d owner then visit owner d else .ok d
  | none => .ok d

/-- A visit, in terms of the visits that it leads to. -/
def visitOnce (g : Graph U) (visit : UnitId → Draft → Except Fault Draft) (id : UnitId) (d : Draft) :
    Except Fault Draft :=
  match g.node? id with
  | none => .ok d
  | some n =>
    if d.visit id ≠ .unvisited then .ok d
    else do
      let d ← g.reachOwner visit n d
      if d.visit id ≠ .unvisited then .ok d else g.placeNode visit id n d

/-- A visit that is watched as it begins and as it ends, as are all visits that it leads to. -/
def visitWatched (g : Graph U) (depth : Nat) (id : UnitId) (d : Draft) : Except Fault Draft :=
  match depth with
  | 0 => g.watch d >>= g.visit 0 id >>= g.watch
  | depth + 1 => g.watch d >>= g.visitOnce (visitWatched g depth) id >>= g.watch

/-- The walk through a whole graph, watched. -/
def fullDraftWatched (g : Graph U) : Except Fault Draft := do
  let roots := g.ids.filter fun id => (g.owner? id).isNone && g.isRoot id
  let d ← roots.foldlM (fun d id => g.visitWatched g.visitDepth id d) g.startDraft
  g.ids.foldlM (fun d id => g.visitWatched g.visitDepth id d) d

variable {g : Graph U}

omit [Device U] in
/-- The watch asks that all that lies within a placed node, however deep, is placed. -/
theorem isComplete_iff (hg : g.Nested) {d : Draft} : g.isComplete d = true ↔
    ∀ {s x}, g.contains s = true → d.visit s = .placed → g.Within x s → d.visit x = .placed := by
  simp only [isComplete, List.all_eq_true, mem_ids, Bool.or_eq_true, bne_iff_ne, beq_iff_eq]
  constructor
  · intro h s x hs hplaced hx
    exact (h s hs).resolve_left (not_not.2 hplaced) x ((mem_descendants hg hs).2 hx)
  · intro h s hs
    by_cases hplaced : d.visit s = .placed
    · exact .inr fun x hx => h hs hplaced ((mem_descendants hg hs).1 hx)
    · exact .inl hplaced

omit [Device U] in
/-- In an orderly walk there is nothing for the watch to stop. -/
theorem Orderly.watch_eq {fs : List Frame} {d : Draft} (hg : g.Nested) (h : g.Orderly fs d) :
    g.watch d = .ok d := by
  refine if_pos ((isComplete_iff hg).2 fun {s x} _ hplaced hx => ?_)
  -- the state spreads inward, owner by owner
  induction hx using Relation.ReflTransGen.head_induction_on with
  | refl => exact hplaced
  | head howner _ ih => exact h.closed howner ih

/-! ## What the watch can change -/

/-- That work comes to the same as other work, unless it is stopped. -/
def Stops {α : Type} (x y : Except Fault α) : Prop := x = .error .endless ∨ x = y

namespace Stops

variable {α β : Type} {x y : Except Fault α}

theorem refl (x : Except Fault α) : Stops x x := .inr rfl

theorem bind (h : Stops x y) {f f' : α → Except Fault β} (hf : ∀ a, Stops (f a) (f' a)) :
    Stops (x >>= f) (y >>= f') := by
  obtain rfl | rfl := h
  · exact .inl rfl
  · cases x with
    | error e => exact .inr rfl
    | ok a => exact hf a

theorem foldlM {f f' : β → α → Except Fault β} (h : ∀ b a, Stops (f b a) (f' b a)) (l : List α)
    (b : β) : Stops (l.foldlM f b) (l.foldlM f' b) := by
  induction l generalizing b with
  | nil => exact refl _
  | cons a l ih => exact (h b a).bind ih

theorem eq_of_not_endless (h : Stops x y) {good : α → Prop} (hx : Arrives good x) : x = y := by
  refine h.resolve_left ?_
  rintro rfl
  exact hx (.inl rfl)

end Stops

section Parts

variable {visit visit' : UnitId → Draft → Except Fault Draft}
  (h : ∀ id d, Stops (visit id d) (visit' id d))
include h

omit [Device U] in
theorem placeUnlessWaiting_stops (d : Draft) (id : UnitId) :
    Stops (g.placeUnlessWaiting visit d id) (g.placeUnlessWaiting visit' d id) := by
  refine (Stops.refl _).bind fun b => ?_
  cases b with
  | true => exact .refl _
  | false => exact h id d

omit [Device U] in
theorem placeParents_stops (id : UnitId) (d : Draft) :
    Stops (g.placeParents visit id d) (g.placeParents visit' id d) := by
  apply Stops.foldlM
  rintro ⟨deferred, d⟩ parent
  refine (Stops.refl _).bind fun b => ?_
  cases b with
  | true => exact .refl _
  | false => exact (h parent d).bind fun _ => .refl _

omit [Device U] in
theorem bindInlets_stops (id : UnitId) (n : Node U) (d : Draft) :
    Stops (g.bindInlets visit id n d) (g.bindInlets visit' id n d) := by
  apply Stops.foldlM
  rintro ⟨inlets, d⟩ inlet
  have hsources := Stops.foldlM (fun d (c : Connection) => h c.source d) (g.streamSources id inlet) d
  exact (hsources.bind fun _ => .refl _).bind fun _ => .refl _

theorem placeContents_stops (id : UnitId) (inlets : Array BufferId) (d : Draft) :
    Stops (g.placeContents visit id inlets d) (g.placeContents visit' id inlets d) := by
  refine (Stops.foldlM (fun d c => h c d) _ _).bind fun d => ?_
  exact (Stops.foldlM (placeUnlessWaiting_stops h) _ d).bind fun _ => .refl _

theorem placeNode_stops (id : UnitId) (n : Node U) (d : Draft) :
    Stops (g.placeNode visit id n d) (g.placeNode visit' id n d) := by
  refine (placeParents_stops h id _).bind fun r => (bindInlets_stops h id n r.2).bind fun s => ?_
  have hrest : ∀ d : Draft, Stops (r.1.foldlM (g.placeUnlessWaiting visit) (d.mark id .placed))
      (r.1.foldlM (g.placeUnlessWaiting visit') (d.mark id .placed)) :=
    fun d => Stops.foldlM (placeUnlessWaiting_stops h) _ _
  cases n.body with
  | subgraph => exact (placeContents_stops h id s.1 s.2).bind hrest
  | device u => exact (Stops.refl _).bind hrest

omit [Device U] in
theorem reachOwner_stops (n : Node U) (d : Draft) :
    Stops (g.reachOwner visit n d) (g.reachOwner visit' n d) := by
  unfold reachOwner
  split
  · next owner _ =>
    split
    · exact h owner d
    · exact .refl _
  · exact .refl _

theorem visitOnce_stops (id : UnitId) (d : Draft) :
    Stops (g.visitOnce visit id d) (g.visitOnce visit' id d) := by
  unfold visitOnce
  split
  · exact .refl _
  · next n _ =>
    split
    · exact .refl _
    · refine (reachOwner_stops h n d).bind fun d => ?_
      split
      · exact .refl _
      · exact placeNode_stops h id n d

end Parts

omit [Device U] in
/-- All that the watch can do to work is stop it. -/
theorem watch_stops {work work' : Draft → Except Fault Draft} (h : ∀ d, Stops (work d) (work' d))
    (d : Draft) : Stops (g.watch d >>= work >>= g.watch) (work' d) := by
  have hwatch : ∀ d, Stops (g.watch d) (.ok d) := by
    intro d
    unfold watch
    split
    · exact .refl _
    · exact .inl rfl
  have hback : work' d = (Except.ok d >>= work' >>= Except.ok) := by
    rw [ok_bind]
    exact (bind_pure _).symm
  rw [hback]
  exact ((hwatch d).bind h).bind hwatch

theorem visit_succ_eq (depth : Nat) (id : UnitId) (d : Draft) :
    g.visit (depth + 1) id d = g.visitOnce (g.visit depth) id d := by
  unfold visitOnce reachOwner
  rw [Graph.visit.eq_def]
  cases g.node? id with
  | none => rfl
  | some n =>
    cases howner : n.owner with
    | none => simp only [howner]; rfl
    | some owner =>
      simp only [howner]
      split
      · rfl
      · split <;> rfl

theorem visitWatched_stops (depth : Nat) (id : UnitId) (d : Draft) :
    Stops (g.visitWatched depth id d) (g.visit depth id d) := by
  induction depth generalizing id d with
  | zero => exact watch_stops (fun _ => .refl _) d
  | succ depth ih =>
    rw [visit_succ_eq]
    exact watch_stops (visitOnce_stops ih id) d

/-! ## Nothing is stopped -/

/-- Only what good results lead to matters. -/
theorem bind_congr_of_outcome {α β : Type} {faulty : Fault → Prop} {good : α → Prop}
    {x : Except Fault α} (h : Outcome faulty good x) {f f' : α → Except Fault β}
    (hf : ∀ a, good a → f a = f' a) : x >>= f = x >>= f' := by
  cases x with
  | error e => rfl
  | ok a => exact hf a h

theorem foldlM_congr_of_outcome {α β : Type} {faulty : Fault → Prop} {inv : β → Prop}
    {f f' : β → α → Except Fault β}
    (h : ∀ b a, inv b → f b a = f' b a ∧ Outcome faulty inv (f' b a)) (l : List α) {b : β}
    (hb : inv b) : l.foldlM f b = l.foldlM f' b := by
  induction l generalizing b with
  | nil => rfl
  | cons a l ih =>
    obtain ⟨hsame, hinv⟩ := h b a hb
    rw [List.foldlM_cons, List.foldlM_cons, hsame]
    exact bind_congr_of_outcome hinv fun _ hb' => ih hb'

/-- That a visit may take place in the middle of the nodes on the stack, and has depth enough. -/
structure Visitable (g : Graph U) (depth : Nat) (fs : List Frame) (d : Draft) (x : UnitId) : Prop where
  depth : g.contains x = true → g.left d * (g.nodes.size + 1) + x.index < depth
  orderly : g.Orderly fs d
  found : d.Found fs
  idle : d.visit x = .unvisited → g.contains x = true → ¬ g.Waits d x

namespace Visitable

variable {depth : Nat} {fs : List Frame} {d : Draft} {x : UnitId}

theorem spec (h : g.Visitable depth fs d x) (hg : g.Sound) :
    Arrives ((foundClient g).Visited fs d x) (g.visit depth x d) :=
  (foundClient g).visit_spec hg depth h.depth h.orderly h.found fun hv hx => ⟨h.idle hv hx, ⟨⟩⟩

omit [Device U] in
/-- So may a visit of the owner of the node, if it has not been reached. -/
theorem owner (h : g.Visitable (depth + 1) fs d x) (hg : g.Sound) (hv : d.visit x = .unvisited)
    {o : UnitId} (howner : g.owner? x = some o) (hvo : d.visit o = .unvisited) :
    g.Visitable depth fs d o := by
  have hx := contains_of_owner? howner
  refine ⟨fun _ => ?_, h.orderly, h.found, fun _ _ hw => ?_⟩
  · have h₁ := hg.nested.older howner
    have h₂ := h.depth hx
    omega
  · exact h.idle hv hx (.step hx hv (.inr (.inr ⟨howner, hvo⟩)) hw)

omit [Device U] in
/-- So may the visits that placing the node leads to, for then one node fewer is left. -/
theorem inner (h : g.Visitable (depth + 1) fs d x) (hx : g.contains x = true)
    (hv : d.visit x = .unvisited) {fs' : List Frame} {d' : Draft} {y : UnitId}
    (hleft : g.left d' ≤ g.left (d.mark x .binding)) (ho : g.Orderly fs' d') (hd : d'.Found fs')
    (hidle : d'.visit y = .unvisited → g.contains y = true → ¬ g.Waits d' y) :
    g.Visitable depth fs' d' y := by
  refine ⟨fun hy => ?_, ho, hd, hidle⟩
  have hlt := left_mark_lt hx (h.orderly.lt_visits hx) hv (v := .binding) (by simp)
  have h₁ := lt_size_of_contains hy
  have h₂ := h.depth hx
  have h₃ : (g.left d' + 1) * (g.nodes.size + 1) ≤ g.left d * (g.nodes.size + 1) :=
    Nat.mul_le_mul_right _ (by omega)
  rw [Nat.add_mul] at h₃
  omega

end Visitable

omit [Device U] in
/-- What is watched in an orderly walk is not stopped by the watch itself. -/
theorem watched_eq (hg : g.Nested) {fs : List Frame} {d : Draft} (ho : g.Orderly fs d)
    {work : Draft → Except Fault Draft} (hwork : Arrives (g.Orderly fs) (work d)) :
    g.watch d >>= work >>= g.watch = work d := by
  rw [ho.watch_eq hg, ok_bind]
  have hend : work d >>= g.watch = work d >>= Except.ok :=
    bind_congr_of_outcome hwork fun d' ho' => ho'.watch_eq hg
  exact hend.trans (bind_pure (work d))

section Once

variable {depth : Nat} (hg : g.Sound)
  (ih : ∀ {fs : List Frame} {d : Draft} {x : UnitId}, g.Visitable depth fs d x →
    g.visitWatched depth x d = g.visit depth x d)
include hg ih

/-- Placing a node comes to the same when the visits that it leads to are watched. -/
theorem placeNode_watched_eq {fs : List Frame} {d : Draft} {x : UnitId} {n : Node U}
    (hn : g.node? x = some n) (h : g.Visitable (depth + 1) fs d x) (hv : d.visit x = .unvisited)
    (howner : ∀ o, g.owner? x = some o → d.visit o ≠ .unvisited) :
    g.placeNode (g.visitWatched depth) x n d = g.placeNode (g.visit depth) x n d := by
  have hx := contains_iff.2 ⟨n, hn⟩
  have hvisits : (foundClient g).Visits (g.left (d.mark x .binding)) (g.visitWatched depth) := by
    intro fs' d' y hleft ho hd hy
    have hinner := h.inner hx hv hleft ho hd fun hu hc => (hy hu hc).1
    rw [ih hinner]
    exact hinner.spec hg
  have hstops : Stops (g.placeNode (g.visitWatched depth) x n d)
      (g.placeNode (g.visit depth) x n d) := placeNode_stops (visitWatched_stops depth) x n d
  apply hstops.eq_of_not_endless
  exact Client.placeNode_spec hg hvisits hn ⟨h.orderly, hx, hv, howner, h.idle hv hx⟩ ⟨⟩ h.found
    (le_refl _)

theorem visitOnce_watched_eq {fs : List Frame} {d : Draft} {x : UnitId}
    (h : g.Visitable (depth + 1) fs d x) :
    g.visitOnce (g.visitWatched depth) x d = g.visitOnce (g.visit depth) x d := by
  unfold visitOnce
  cases hn : g.node? x with
  | none => rfl
  | some n =>
    dsimp only
    by_cases hv : d.visit x = .unvisited
    · rw [if_neg (not_not.2 hv), if_neg (not_not.2 hv)]
      have hplace := placeNode_watched_eq hg ih hn h hv
      unfold reachOwner
      cases ho : n.owner with
      | none =>
        simp only [ok_bind, hv, ne_eq, not_true, if_false]
        exact hplace fun o h => by simp [owner?, hn, ho] at h
      | some o =>
        have howner : g.owner? x = some o := by simp [owner?, hn, ho]
        have hoc := contains_of_isSubgraph (hg.nested.holder howner)
        by_cases hvo : d.visit o = .unvisited
        · -- the owner is placed with all that it holds, the node included
          have hun : g.isUnvisited d o = true := by simp [isUnvisited, hoc, hvo]
          have howned := h.owner hg hv howner hvo
          simp only [hun, if_true]
          rw [ih howned]
          refine bind_congr_of_outcome (howned.spec hg) fun d' h' => ?_
          have hpo := h'.placed hoc fun hb => by
            rcases hb with hb | hb <;> rw [hvo] at hb <;> cases hb
          have hpx := h'.orderly.closed howner hpo
          simp [hpx]
        · have hun : g.isUnvisited d o = false := by simp [isUnvisited, hvo]
          simp only [hun, Bool.false_eq_true, if_false, ok_bind, hv, ne_eq, not_true]
          refine hplace fun o' h => ?_
          rw [howner] at h
          cases h
          exact hvo
    · rw [if_pos hv, if_pos hv]

end Once

/-- A visit that may take place comes to the same when it is watched. -/
theorem visitWatched_eq (hg : g.Sound) (depth : Nat) : ∀ {fs : List Frame} {d : Draft} {x : UnitId},
    g.Visitable depth fs d x → g.visitWatched depth x d = g.visit depth x d := by
  induction depth with
  | zero =>
    intro fs d x h
    exact watched_eq hg.nested h.orderly ((h.spec hg).mono fun _ h' => h'.orderly)
  | succ depth ih =>
    intro fs d x h
    have honce := visitOnce_watched_eq hg ih h
    rw [← visit_succ_eq] at honce
    show g.watch d >>= g.visitOnce (g.visitWatched depth) x >>= g.watch = _
    rw [watched_eq hg.nested h.orderly, honce]
    rw [honce]
    exact (h.spec hg).mono fun _ h' => h'.orderly

/-- The watch has nothing to stop in the walk through a whole graph. -/
theorem fullDraftWatched_eq (hg : g.Sound) : g.fullDraftWatched = g.fullDraft := by
  have hvisitable : ∀ {d : Draft} {x : UnitId}, g.Orderly [] d ∧ d.Found [] →
      g.Visitable g.visitDepth [] d x := by
    rintro d x ⟨ho, hd⟩
    refine ⟨fun hx => ?_, ho, hd, fun _ _ => ho.not_waits_of_nil hg.nested x⟩
    have h₁ : g.left d ≤ g.nodes.size := by
      simpa [left] using Finset.card_filter_le (Finset.range g.nodes.size) _
    have h₂ := lt_size_of_contains hx
    have h₃ := Nat.mul_le_mul_right (g.nodes.size + 1) h₁
    rw [visitDepth, Nat.add_mul]
    omega
  have hstep : ∀ (d : Draft) (x : UnitId), g.Orderly [] d ∧ d.Found [] →
      g.visitWatched g.visitDepth x d = g.visit g.visitDepth x d ∧
        Arrives (fun d => g.Orderly [] d ∧ d.Found []) (g.visit g.visitDepth x d) := by
    intro d x hd
    refine ⟨visitWatched_eq hg _ (hvisitable hd), ?_⟩
    exact ((hvisitable hd).spec hg).mono fun _ h => ⟨h.orderly, h.inv⟩
  have hwalk : ∀ (l : List UnitId) {d : Draft}, g.Orderly [] d ∧ d.Found [] →
      l.foldlM (fun d x => g.visitWatched g.visitDepth x d) d =
        l.foldlM (fun d x => g.visit g.visitDepth x d) d ∧
      Arrives (fun d => g.Orderly [] d ∧ d.Found [])
        (l.foldlM (fun d x => g.visit g.visitDepth x d) d) := by
    intro l d hd
    refine ⟨foldlM_congr_of_outcome hstep l hd, ?_⟩
    exact Outcome.foldlM (fun _ d => g.Orderly [] d ∧ d.Found []) hd
      fun _ x _ d _ hd => (hstep d x hd).2
  unfold fullDraftWatched fullDraft
  dsimp only
  obtain ⟨hroots, hreached⟩ := hwalk (g.ids.filter fun id => (g.owner? id).isNone && g.isRoot id)
    ⟨orderly_startDraft hg, found_startDraft g⟩
  rw [hroots]
  exact bind_congr_of_outcome hreached fun d hd => (hwalk g.ids hd).1

end Graph
end Patchbay
