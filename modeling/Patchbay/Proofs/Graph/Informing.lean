import Patchbay.Catalogue.Arithmetic
import Patchbay.Proofs.Graph.Fronts
import Patchbay.Proofs.Graph.Inheriting

/-!
# What units are told of their streams

A unit is told how many streams arrive at each of its inlets whenever one comes or goes. Hence what a
unit was told last in an edit is how many there are after it, and a unit that was told nothing has as
many as before (`Informs`). Nothing else that an edit does changes a unit.
-/

namespace Patchbay

open Catalogue (streamsAt)

variable {U : Type}

/-- The last notice about a unit. -/
def lastNotice? (x : UnitId) (news : List Notice) : Option Notice :=
  (news.filter (·.unit = x)).getLast?

/-- The number of streams at each inlet as a unit was told last, or else as it was before. -/
def streamsHeard (x : UnitId) (known : Nat → Nat) (news : List Notice) : Nat → Nat :=
  ((lastNotice? x news).map fun notice => streamsAt notice.counts).getD known

theorem lastNotice?_append (x : UnitId) (news news' : List Notice) :
    lastNotice? x (news ++ news') = (lastNotice? x news').or (lastNotice? x news) := by
  rw [lastNotice?, List.filter_append, List.getLast?_append]
  rfl

theorem streamsHeard_nil (x : UnitId) (known : Nat → Nat) : streamsHeard x known [] = known := rfl

theorem streamsHeard_append (x : UnitId) (known : Nat → Nat) (news news' : List Notice) :
    streamsHeard x known (news ++ news') = streamsHeard x (streamsHeard x known news) news' := by
  rw [streamsHeard, lastNotice?_append]
  cases h : lastNotice? x news' <;> simp [streamsHeard, h]

theorem streamsHeard_self (known : Nat → Nat) (notice : Notice) :
    streamsHeard notice.unit known [notice] = streamsAt notice.counts := by
  simp [streamsHeard, lastNotice?]

theorem streamsHeard_of_ne {x : UnitId} (known : Nat → Nat) {notice : Notice} (h : notice.unit ≠ x) :
    streamsHeard x known [notice] = known := by
  simp [streamsHeard, lastNotice?, h]

/-- A unit to which more streams arrive than it knew of before has been told of them. -/
theorem exists_lastNotice? {x : UnitId} {known : Nat → Nat} {news : List Notice} {i : Nat}
    (h : streamsHeard x known news i ≠ known i) : ∃ notice, lastNotice? x news = some notice := by
  cases hlast : lastNotice? x news with
  | none => simp [streamsHeard, hlast] at h
  | some notice => exact ⟨notice, rfl⟩

section Bodies

theorem Body.Becomes.eq {b b' : Body U} (h : b.Becomes Eq b') : b' = b := by
  cases b <;> cases b' <;> simp only [Becomes] at h
  · rw [h]
  · rfl

variable [Device U]

/-- What a node has become by some notices. -/
def Body.informed (x : UnitId) (news : List Notice) (b : Body U) : Body U :=
  (news.filter (·.unit = x)).foldl (fun b notice => b.rewired notice.inlet notice.counts) b

theorem Body.informed_append (x : UnitId) (news news' : List Notice) (b : Body U) :
    b.informed x (news ++ news') = (b.informed x news).informed x news' := by
  simp [informed]

/-- What a unit makes of the number of its streams fits the number that it was told last. -/
theorem Body.exists_informed {P : (Nat → Nat) → U → Prop}
    (hP : ∀ known u inlet counts, P known u → P (streamsAt counts) (Device.rewired u inlet counts))
    {known : Nat → Nat} {u : U} (hu : P known u) (x : UnitId) (news : List Notice) :
    ∃ v, (Body.device u).informed x news = .device v ∧ P (streamsHeard x known news) v := by
  induction news using List.reverseRecOn with
  | nil => exact ⟨u, rfl, hu⟩
  | append_singleton news notice ih =>
    obtain ⟨v, hv, hknown⟩ := ih
    rw [informed_append, hv, streamsHeard_append]
    by_cases hx : notice.unit = x
    · subst hx
      rw [streamsHeard_self]
      exact ⟨_, by simp [informed, rewired], hP _ v notice.inlet notice.counts hknown⟩
    · rw [streamsHeard_of_ne _ hx]
      exact ⟨v, by simp [informed, hx], hknown⟩

end Bodies

/-! ## The number of streams -/

namespace Graph

/-- The number of streams that arrive at an inlet. -/
def streamsInto (g : Graph U) (x : UnitId) (i : Nat) : Nat := (g.streamSources x i).length

variable {g g' : Graph U} {x : UnitId} {c : Connection}

theorem streamsInto_eq_countP (g : Graph U) (x : UnitId) (i : Nat) : g.streamsInto x i =
    g.connections.countP fun c => c.dest == x && c.inlet == i && g.kindOf c == .stream :=
  List.countP_eq_length_filter.symm

theorem streamsInto_pos_iff {i : Nat} : 0 < g.streamsInto x i ↔ g.streamSources x i ≠ [] :=
  List.length_pos_iff

/-- It depends on the connections and their kinds alone. -/
theorem streamsInto_congr (hconn : g'.connections = g.connections)
    (hkind : ∀ c ∈ g.connections, g'.kindOf c = g.kindOf c) : g'.streamsInto = g.streamsInto := by
  funext x i
  rw [streamsInto_eq_countP, streamsInto_eq_countP, hconn]
  refine List.countP_congr fun c hc => ?_
  rw [hkind c hc]

theorem SameShape.streamsInto (h : g.SameShape g') : g'.streamsInto = g.streamsInto :=
  streamsInto_congr h.connections fun c _ => h.kindOf c

theorem streamsInto_withNotices (g : Graph U) (notices : Array Notice) :
    ({ g with notices } : Graph U).streamsInto = g.streamsInto :=
  streamsInto_congr rfl fun _ _ => rfl

theorem kindOf_of_nodes (hnodes : g'.nodes = g.nodes) : g'.kindOf = g.kindOf := by
  funext d
  rw [kindOf, kindOf, ports, ports, node?_eq, node?_eq, hnodes]

/-- Connections that come behind the others change nothing where no stream among them arrives. -/
theorem streamsInto_concat (hnodes : g'.nodes = g.nodes) (hconn : g'.connections = g.connections ++ [c])
    (h : g.kindOf c = .stream → c.dest ≠ x) : g'.streamsInto x = g.streamsInto x := by
  funext i
  have hnot : ¬ (c.dest == x && c.inlet == i && g.kindOf c == .stream) = true := by
    simp only [Bool.and_eq_true, beq_iff_eq]
    exact fun hc => h hc.2 hc.1.1
  rw [streamsInto_eq_countP, streamsInto_eq_countP, hconn, kindOf_of_nodes hnodes,
    List.countP_append, List.countP_singleton, if_neg hnot, Nat.add_zero]

/-- Connections that go change nothing where no stream among them arrives. -/
theorem streamsInto_erase (hnodes : g'.nodes = g.nodes)
    (hconn : g'.connections = g.connections.erase c)
    (h : c ∈ g.connections → g.kindOf c = .stream → c.dest ≠ x) :
    g'.streamsInto x = g.streamsInto x := by
  funext i
  have hnot : ¬ (c ∈ g.connections ∧
      (c.dest == x && c.inlet == i && g.kindOf c == .stream) = true) := by
    simp only [Bool.and_eq_true, beq_iff_eq]
    exact fun hc => h hc.1 hc.2.2 hc.2.1.1
  rw [streamsInto_eq_countP, streamsInto_eq_countP, hconn, kindOf_of_nodes hnodes,
    List.countP_erase, if_neg hnot, Nat.sub_zero]

/-- What a unit is told is the number of streams at each of its inlets. At others there are none. -/
theorem streamsAt_streamCounts (hinlet : ∀ c ∈ g.connections, c.inlet < (g.ports c.dest).inlets)
    (x : UnitId) : streamsAt (g.streamCounts x) = g.streamsInto x := by
  funext i
  by_cases hi : i < (g.ports x).inlets
  · simp [streamsAt, streamCounts, hi, streamsInto]
  · have hnone : g.streamSources x i = [] := by
      refine List.eq_nil_iff_forall_not_mem.2 fun c hc => hi ?_
      obtain ⟨hmem, -, rfl, rfl⟩ := mem_streamSources.1 hc
      exact hinlet c hmem
    simp [streamsAt, streamCounts, hi, streamsInto, hnone]

/-! ## What edits tell -/

variable [Device U] {g'' : Graph U} {news news' : List Notice}

/-- That an edit has given certain notices and has changed no unit otherwise, and that these notices
say what has become of the streams. -/
structure Informs (g : Graph U) (news : List Notice) (g' : Graph U) : Prop where
  size : g.nodes.size ≤ g'.nodes.size
  notices : g'.notices.toList = g.notices.toList ++ news
  streams : ∀ x, g'.streamsInto x = streamsHeard x (g.streamsInto x) news
  body : ∀ {x n'}, g'.node? x = some n' → x.index < g.nodes.size →
    ∃ n, g.node? x = some n ∧ n'.body = n.body.informed x news

theorem Informs.trans (h : g.Informs news g') (h' : g'.Informs news' g'') :
    g.Informs (news ++ news') g'' where
  size := h.size.trans h'.size
  notices := by rw [h'.notices, h.notices, List.append_assoc]
  streams x := by rw [h'.streams, h.streams, streamsHeard_append]
  body {x n''} hn hlt := by
    obtain ⟨n', hn', hbody'⟩ := h'.body hn (hlt.trans_le h.size)
    obtain ⟨n, hn, hbody⟩ := h.body hn' hlt
    exact ⟨n, hn, by rw [hbody', hbody, Body.informed_append]⟩

/-- Where no stream comes or goes there is nothing to tell. -/
theorem Informs.nothing (hsize : g.nodes.size ≤ g'.nodes.size)
    (hold : ∀ {x n'}, g'.node? x = some n' → x.index < g.nodes.size →
      ∃ n, g.node? x = some n ∧ n'.body = n.body)
    (hnotices : g'.notices = g.notices) (hstreams : g'.streamsInto = g.streamsInto) :
    g.Informs [] g' where
  size := hsize
  notices := by rw [hnotices, List.append_nil]
  streams x := by rw [hstreams, streamsHeard_nil]
  body := hold

theorem informs_of_nodes (hnodes : g'.nodes = g.nodes) (hnotices : g'.notices = g.notices)
    (hstreams : g'.streamsInto = g.streamsInto) : g.Informs [] g' :=
  .nothing (hnodes ▸ le_rfl) (fun {x n'} hn _ => ⟨n', by rw [node?_eq, ← hnodes]; exact hn, rfl⟩)
    hnotices hstreams

theorem Informs.refl (g : Graph U) : g.Informs [] g := informs_of_nodes rfl rfl rfl

/-- When streams have come or gone at one node alone, telling it makes up for it. -/
theorem informs_tell (g' : Graph U) (hnodes : g'.nodes = g.nodes) (hnotices : g'.notices = g.notices)
    (hinlet : ∀ c ∈ g'.connections, c.inlet < (g'.ports c.dest).inlets)
    (hothers : ∀ y, x ≠ y → g'.streamsInto y = g.streamsInto y) (inlet : Nat) :
    g.Informs [⟨x, inlet, g'.streamCounts x⟩] (Edit.tell g' x inlet) where
  size := by rw [(Edit.sameShape_tell ..).size, hnodes]
  notices := by
    rw [Edit.tell, Edit.notify, hnotices, Array.toList_push]
  streams y := by
    rw [(Edit.sameShape_tell g' x inlet).streamsInto]
    by_cases hy : x = y
    · subst hy
      exact ((streamsHeard_self (g.streamsInto x) ⟨x, inlet, g'.streamCounts x⟩).trans
        (streamsAt_streamCounts hinlet x)).symm
    · rw [streamsHeard_of_ne _ hy, hothers y hy]
  body {y n'} hn _ := by
    have hn : (g'.modifyNode x fun n =>
        { n with body := n.body.rewired inlet (g'.streamCounts x) }).node? y = some n' := hn
    rw [node?_modifyNode, node?_eq, hnodes, ← node?_eq] at hn
    split at hn
    · next hy =>
      subst hy
      obtain ⟨n, hold, rfl⟩ := Option.map_eq_some_iff.1 hn
      exact ⟨n, hold, by simp [Body.informed]⟩
    · next hy => exact ⟨n', hn, by simp [Body.informed, Ne.symm hy]⟩

/-- That certain connections have gone, and that all notices were of streams among them. -/
structure Sheds (P : Connection → Prop) (g : Graph U) (news : List Notice) (g' : Graph U) : Prop
    extends g.Informs news g' where
  left : ∀ c ∈ g'.connections, c ∈ g.connections ∧ g'.kindOf c = g.kindOf c
  lost : ∀ notice ∈ news, ∃ c ∈ g.connections, g.kindOf c = .stream ∧ c.dest = notice.unit ∧ P c

namespace Sheds

variable {P Q : Connection → Prop}

theorem refl (P : Connection → Prop) (g : Graph U) : Sheds P g [] g :=
  ⟨.refl g, fun _ hc => ⟨hc, rfl⟩, fun _ h => (by cases h)⟩

theorem mono (h : Sheds P g news g') (hPQ : ∀ c ∈ g.connections, P c → Q c) : Sheds Q g news g' := by
  refine ⟨h.toInforms, h.left, fun notice hmem => ?_⟩
  obtain ⟨c, hc, hk, hdest, hP⟩ := h.lost notice hmem
  exact ⟨c, hc, hk, hdest, hPQ c hc hP⟩

theorem trans (h : Sheds P g news g') (h' : Sheds P g' news' g'') : Sheds P g (news ++ news') g'' := by
  refine ⟨h.toInforms.trans h'.toInforms, fun c hc => ?_, fun notice hmem => ?_⟩
  · obtain ⟨hc', hk'⟩ := h'.left c hc
    obtain ⟨hc, hk⟩ := h.left c hc'
    exact ⟨hc, hk'.trans hk⟩
  · rcases List.mem_append.1 hmem with hmem | hmem
    · exact h.lost notice hmem
    · obtain ⟨c, hc', hk', hdest, hP⟩ := h'.lost notice hmem
      obtain ⟨hc, hk⟩ := h.left c hc'
      exact ⟨c, hc, hk ▸ hk', hdest, hP⟩

end Sheds
end Graph
namespace Edit

open Patchbay.Graph

variable [Device U] {g g' : Graph U}

/-! ## Connections -/

theorem sheds_drop (hg : g.Wired) (c : Connection) : ∃ news, Sheds (· = c) g news (drop g c) := by
  have hother : ∀ x, (c ∈ g.connections → g.kindOf c = .stream → c.dest ≠ x) →
      streamsInto { g with connections := g.connections.erase c, plan := none } x = g.streamsInto x :=
    fun x => streamsInto_erase rfl rfl
  have hleft : ∀ d ∈ (drop g c).connections, d ∈ g.connections ∧ (drop g c).kindOf d = g.kindOf d := by
    intro d hd
    rw [connections_drop] at hd
    refine ⟨List.mem_of_mem_erase hd, ?_⟩
    rw [kindOf, kindOf, ports_eq_shape, ports_eq_shape, (dropped_drop g c).shape]
  by_cases hstream : c ∈ g.connections ∧ g.kindOf c = .stream
  · have htell := informs_tell (g := g)
      { g with connections := g.connections.erase c, plan := none } rfl rfl
      (fun d hd => hg.inlet d (List.mem_of_mem_erase hd)) (fun y hy => hother y fun _ _ => hy) c.inlet
    have hdrop : drop g c = tell { g with connections := g.connections.erase c, plan := none } c.dest
        c.inlet := if_pos hstream
    refine ⟨_, hdrop ▸ htell, hleft, fun notice hmem => ⟨c, hstream.1, hstream.2, ?_, rfl⟩⟩
    rw [List.mem_singleton.1 hmem]
  · have hdrop : drop g c = { g with connections := g.connections.erase c, plan := none } :=
      if_neg hstream
    have hquiet : g.Informs [] { g with connections := g.connections.erase c, plan := none } :=
      informs_of_nodes rfl rfl
        (funext fun x => hother x fun hc hk => absurd ⟨hc, hk⟩ hstream)
    exact ⟨[], hdrop ▸ hquiet, hleft, fun _ h => (by cases h)⟩

theorem sheds_foldl_drop (cs : List Connection) (hg : g.Sound) :
    ∃ news, Sheds (· ∈ cs) g news (cs.foldl drop g) := by
  induction cs generalizing g with
  | nil => exact ⟨[], .refl _ g⟩
  | cons c cs ih =>
    obtain ⟨news, hfirst⟩ := sheds_drop hg.wired c
    obtain ⟨news', hrest⟩ := ih (sound_drop hg c)
    exact ⟨news ++ news', (hfirst.mono fun _ _ he => he ▸ List.mem_cons_self).trans
      (hrest.mono fun _ _ => List.mem_cons_of_mem c)⟩

/-- What a node loses when it is cut off leaves or enters it. -/
theorem sheds_cutOff (hg : g.Sound) (id : UnitId) :
    ∃ news, Sheds (fun c => c.source = id ∨ c.dest = id) g news (cutOff g id) := by
  obtain ⟨news, h⟩ := sheds_foldl_drop (g.allIncoming id ++ g.allOutgoing id) hg
  exact ⟨news, h.mono fun c hc => (mem_incident hg.wired hc).1⟩

theorem informs_connect (hg : g.Wired) {c : Connection} {kind : ConnectionKind}
    (h : connect c g = .ok kind g') : ∃ news, g.Informs news g' := by
  obtain ⟨hval, -, -, rfl⟩ := connect_eq_ok h
  obtain ⟨-, -, -, -, houtlet, hin, -⟩ := validate_eq_ok hval
  have hkind : g.kindOf c = kind := by simp [Graph.kindOf, houtlet]
  have hother : ∀ x, (g.kindOf c = .stream → c.dest ≠ x) →
      streamsInto { g with connections := g.connections ++ [c], plan := none } x = g.streamsInto x :=
    fun x => streamsInto_concat rfl rfl
  split
  · refine ⟨_, informs_tell (g := g)
      { g with connections := g.connections ++ [c], plan := none } rfl rfl
      (fun d hd => ?_) (fun y hy => hother y fun _ => hy) c.inlet⟩
    rcases List.mem_append.1 hd with hd | hd
    · exact hg.inlet d hd
    · rw [List.mem_singleton.1 hd]
      exact hin
  · next hnot =>
    refine ⟨_, informs_of_nodes rfl rfl (funext fun x => hother x fun hk => ?_)⟩
    exact absurd (hkind.symm.trans hk) hnot

theorem informs_disconnect (hg : g.Wired) {c : Connection} (h : disconnect c g = .ok ⟨⟩ g') :
    ∃ news, g.Informs news g' := by
  obtain ⟨-, rfl⟩ := disconnect_eq_ok h
  obtain ⟨news, h⟩ := sheds_drop hg c
  exact ⟨news, h.toInforms⟩

/-! ## Nodes -/

/-- A node without connections goes unnoticed. -/
theorem sheds_vacate {id : UnitId} (P : Connection → Prop) (h : ∀ c ∈ g.connections, c.source ≠ id) :
    Sheds P g [] (vacate g id) := by
  have hold : ∀ {x n'}, Graph.node? (vacate g id) x = some n' → g.node? x = some n' := by
    intro x n' hn
    rw [node?_eq, vacate, Array.getElem?_setIfInBounds] at hn
    split at hn
    · split at hn <;> cases hn
    · exact hn
  have hkind : ∀ c ∈ g.connections, Graph.kindOf (vacate g id) c = g.kindOf c := fun c hc => by
    rw [kindOf, kindOf, ports_eq_shape, shape_vacate, if_neg (h c hc), ← ports_eq_shape]
  refine ⟨.nothing ?_ (fun {x n'} hn _ => ⟨n', hold hn, rfl⟩) rfl (streamsInto_congr rfl hkind),
    fun c hc => ⟨hc, hkind c hc⟩, fun _ h => (by cases h)⟩
  rw [vacate, Array.size_setIfInBounds]

theorem sheds_dropNode (hg : g.Sound) (id : UnitId) :
    ∃ news, Sheds (fun c => c.source = id ∨ c.dest = id) g news (dropNode g id) := by
  obtain ⟨news, hcut⟩ := sheds_cutOff hg id
  exact ⟨news ++ [], hcut.trans (sheds_vacate _ fun c hc => (ends_cutOff hg.wired hc).1)⟩

/-- Nodes that go take their connections with them, and the units at the other ends are told. -/
theorem sheds_foldl_dropNode (hg : g.Sound) {id : UnitId} (gone : List UnitId) {rest : List UnitId}
    (h : g.contentsFirst id = gone ++ rest) :
    ∃ news, Sheds (fun c => c.source ∈ gone ∨ c.dest ∈ gone) g news (gone.foldl dropNode g) := by
  refine (foldl_dropNode_keeps
    (P := fun gone g' => ∃ news, Sheds (fun c => c.source ∈ gone ∨ c.dest ∈ gone) g news g') hg
    ⟨[], .refl _ g⟩ (fun {gone g' x} hg' _ hsheds => ?_) gone h).2
  obtain ⟨news, hsheds⟩ := hsheds
  obtain ⟨news', hdrop⟩ := sheds_dropNode hg' x
  refine ⟨news ++ news', (hsheds.mono fun c _ hends => ?_).trans (hdrop.mono fun c _ hends => ?_)⟩
  · exact hends.imp (List.mem_append_left _) (List.mem_append_left _)
  · exact hends.imp (fun he => by simp [he]) fun he => by simp [he]

theorem informs_remove (hg : g.Sound) {id : UnitId} {body : Body U} (h : remove id g = .ok body g') :
    ∃ news, g.Informs news g' := by
  obtain ⟨-, rfl⟩ := remove_eq_ok h
  obtain ⟨news, h⟩ := sheds_foldl_dropNode hg _ (List.append_nil _).symm
  exact ⟨news, h.toInforms⟩

/-- What comes out when a node is removed has been told that no streams arrive there any more. -/
theorem uprooted?_eq_some (hg : g.Sound) {id : UnitId} {body : Body U}
    (h : uprooted? g id = some body) : ∃ n news, g.node? id = some n ∧
      body = n.body.informed id news ∧ ∀ i, streamsHeard id (g.streamsInto id) news i = 0 := by
  have hinside := g.contentsFirst_eq id
  obtain ⟨news, hdrop⟩ := sheds_foldl_dropNode hg _ hinside
  have hleft := (foldl_dropNode_keeps (P := fun _ _ => True) hg ⟨⟩ (fun _ _ _ => ⟨⟩) _ hinside).1
  obtain ⟨news', hcut⟩ := sheds_cutOff hleft id
  have hinforms := hdrop.toInforms.trans hcut.toInforms
  obtain ⟨n', hn', rfl⟩ := Option.map_eq_some_iff.1 h
  have hlt := lt_size_of_node? hn'
  rw [(dropped_cutOff _ id).size, size_foldl_dropNode] at hlt
  obtain ⟨n, hn, hbody⟩ := hinforms.body hn' hlt
  refine ⟨n, news ++ news', hn, hbody, fun i => ?_⟩
  rw [← hinforms.streams]
  refine Nat.eq_zero_of_not_pos fun hpos => streamsInto_pos_iff.1 hpos ?_
  refine List.eq_nil_iff_forall_not_mem.2 fun c hc => ?_
  obtain ⟨hc, -, hdest, -⟩ := mem_streamSources.1 hc
  exact (ends_cutOff hleft.wired hc).2 hdest

/-- A new node leaves connections and units as they are. -/
theorem informs_add (hf : g.Fronted) (hg : g.Sound) {owner : Option UnitId} {body : Body U}
    {id : UnitId} (h : add owner body g = .ok id g') : g.Informs [] g' := by
  have hinherits := inherits_add (R := Eq) (fun _ => rfl) (fun _ _ _ => Eq.trans) h
  obtain ⟨hconn, hnotices⟩ : g'.connections = g.connections ∧ g'.notices = g.notices := by
    cases owner with
    | none =>
      obtain ⟨_, _, -, -, rfl⟩ := insert_eq_ok h
      exact ⟨rfl, rfl⟩
    | some owner =>
      obtain ⟨holder, g₁, -, -, hins, h⟩ := insertInto_eq_ok h
      obtain ⟨_, _, -, -, rfl⟩ := insert_eq_ok hins
      rcases h with ⟨-, rfl⟩ | ⟨side, grown, -, -, rfl⟩ <;> exact ⟨rfl, rfl⟩
  have hsound := sound_add hg h
  obtain ⟨-, hgrows⟩ := fronted_add hf hg h
  refine .nothing hinherits.size (fun {x n'} hn hlt => ?_) hnotices
    (streamsInto_congr hconn fun c hc => ?_)
  · obtain ⟨n, hold, hbody, -⟩ := hinherits.old hn hlt
    exact ⟨n, hold, hbody.eq⟩
  · have hports := hgrows.ports (hg.wired.source c hc) (hsound.wired.source c (hconn ▸ hc))
    rw [kindOf, kindOf, hports.kind _ (hg.wired.outlet c hc)]

end Edit
end Patchbay
