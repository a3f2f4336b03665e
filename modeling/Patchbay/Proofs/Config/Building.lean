import Patchbay.Config.Build
import Patchbay.Proofs.Outcome

/-!
# The steps of building

What each step of building can do: a unit is added, or is refused for one of four reasons (`AddsUnit`).
Entries are built one after another, and the first that is refused ends that, so its error is that of
the whole list (`outcome_forM`).
-/

namespace Patchbay

namespace Building

variable {α β : Type} {c c' : Construction}

theorem run_bind (x : Building α) (f : α → Building β) (c : Construction) :
    (x >>= f).run.run c = x.run.run c >>= fun
      | (.ok a, c') => (f a).run.run c'
      | (.error why, c') => .ok (.error why, c') := by
  show (x c >>= fun o => ExceptT.bindCont f o.1 o.2) = _
  unfold ExceptT.bindCont
  cases hx : x c with
  | error how =>
    show Except.error how = x c >>= _
    rw [hx]
    rfl
  | ok o =>
    show _ = x c >>= _
    rw [hx]
    obtain ⟨_ | a, c'⟩ := o <;> rfl

theorem run_get_bind {α : Type} (f : Construction → Building α) (c : Construction) :
    (get >>= f).run.run c = (f c).run.run c := rfl

/-- A change that is made leaves the construction with the changed engine. -/
theorem run_change_bind {α β : Type} (wording : GraphError → ConfigError)
    {x : Change CatalogueUnit α} {c : Construction} {a : α} {e : Engine CatalogueUnit}
    (h : x c.engine = .ok a e) (f : α → Building β) :
    (change wording x >>= f).run.run c = (f a).run.run { c with engine := e } := by
  unfold change
  rw [bind_assoc, run_get_bind, h]
  rfl

theorem run_owner (u : UnitEntry) (c : Construction) : (owner u).run.run c =
    match u.parent with
    | none => .ok (.ok none, c)
    | some parent =>
      match c.unit? parent with
      | some id => .ok (.ok (some id), c)
      | none => .ok (.error (.unknownUnit parent), c) := by
  unfold owner
  cases u.parent with
  | none => rfl
  | some parent =>
    dsimp only
    rw [run_bind]
    unfold lookUp
    rw [run_get_bind]
    cases c.unit? parent <;> rfl

theorem run_change (wording : GraphError → ConfigError) (x : Change CatalogueUnit α)
    (c : Construction) : (change wording x).run.run c =
    match x c.engine with
    | .ok a e => .ok (.ok a, { c with engine := e })
    | .error (.refused why) e => .ok (.error (wording why), { c with engine := e })
    | .error (.broken how) _ => .error how := by
  unfold change
  rw [run_get_bind]
  cases x c.engine with
  | ok a e => rfl
  | error f e => cases f <;> rfl

/-- What has been reported meanwhile stands in the journal, and nothing else has changed. -/
theorem exists_journal (reports : Array Report) (e : Engine CatalogueUnit) :
    ∃ journal, reports.foldl (fun e r => e.record (.reported r)) e = { e with journal } := by
  rw [← Array.foldl_toList]
  generalize reports.toList = reports
  induction reports generalizing e with
  | nil => exact ⟨e.journal, rfl⟩
  | cons r reports ih => exact ih (e.record (.reported r))

end Building

/-- What a declared unit is made to. -/
inductive UnitEntry.Makes (settings : Settings) (u : UnitEntry) : Body CatalogueUnit → Prop
  | subgraph : u.isSubgraph = true → Makes settings u .subgraph
  | device {unit : CatalogueUnit} {reports : Array Report} : u.isSubgraph = false →
      Catalogue.create u.label (.parse 0 u.args) settings #[] = .ok (some unit) reports →
      Makes settings u (.device unit)

namespace Building

/-- The owner of a declared unit, if it can be found. -/
def OwnedBy (c : Construction) (u : UnitEntry) (owner : Option UnitId) : Prop :=
  match u.parent with
  | none => owner = none
  | some parent => ∃ id, c.unit? parent = some id ∧ owner = some id

/-- What it comes to when a unit is to be added. -/
inductive AddsUnit (u : UnitEntry) (c : Construction) :
    Except ConfigError PUnit → Construction → Prop
  | duplicate : (c.unit? u.name).isSome = true → AddsUnit u c (.error (.duplicateUnit u.name)) c
  | orphan {parent : String} : c.unit? u.name = none → u.parent = some parent →
      c.unit? parent = none → AddsUnit u c (.error (.unknownUnit parent)) c
  | unlisted {owner : Option UnitId} {reports : Array Report} (journal : Journal) :
      c.unit? u.name = none → OwnedBy c u owner → u.isSubgraph = false →
      Catalogue.create u.label (.parse 0 u.args) c.engine.settings #[] = .ok none reports →
      AddsUnit u c (.error (.unknownLabel u.name u.label))
        { c with engine := { c.engine with journal } }
  | misplaced {owner : Option UnitId} {body : Body CatalogueUnit} {why : GraphError}
      {g : Graph CatalogueUnit} (journal : Journal) : c.unit? u.name = none → OwnedBy c u owner →
      u.Makes c.engine.settings body → Edit.add owner body c.engine.graph = .error (.refused why) g →
      AddsUnit u c (.error (.placement u.name (u.parent.getD "") why))
        { c with engine := { c.engine with journal }.withGraph g }
  | added {owner : Option UnitId} {body : Body CatalogueUnit} {id : UnitId}
      {g : Graph CatalogueUnit} (journal : Journal) : c.unit? u.name = none → OwnedBy c u owner →
      u.Makes c.engine.settings body → Edit.add owner body c.engine.graph = .ok id g →
      AddsUnit u c (.ok ⟨⟩)
        { engine := { c.engine with journal }.withGraph g, names := c.names ++ [(u.name, id)] }

theorem run_body (u : UnitEntry) (c : Construction) : (body u).run.run c =
    if u.isSubgraph = true then .ok (.ok .subgraph, c)
    else
      match Catalogue.create u.label (.parse 0 u.args) c.engine.settings #[] with
      | .error how _ => .error how
      | .ok (some unit) reports => .ok (.ok (.device unit),
          { c with engine := reports.foldl (fun e r => e.record (.reported r)) c.engine })
      | .ok none reports => .ok (.error (.unknownLabel u.name u.label),
          { c with engine := reports.foldl (fun e r => e.record (.reported r)) c.engine }) := by
  unfold body
  split
  · rfl
  · rw [run_bind]
    unfold create
    rw [run_get_bind]
    show Except.bind _ _ = _
    unfold EStateM.run
    cases Catalogue.create u.label (.parse 0 u.args) c.engine.settings #[] with
    | error how _ => rfl
    | ok made reports => cases made <;> rfl

/-- From where it is clear what a unit is made to, only its place can be wrong. -/
theorem addsUnit_of_makes {u : UnitEntry} {owner : Option UnitId} {body : Body CatalogueUnit}
    (hname : c.unit? u.name = none) (howner : OwnedBy c u owner)
    (hmakes : u.Makes c.engine.settings body) (journal : Journal) :
    Outcome (fun _ => True) (fun o => AddsUnit u c o.1 o.2)
      ((change (.placement u.name (u.parent.getD "")) (Engine.edit (Edit.add owner body)) >>=
        fun id => modify fun c => { c with names := c.names ++ [(u.name, id)] }).run.run
          { c with engine := { c.engine with journal } }) := by
  rw [run_bind, run_change]
  unfold Engine.edit
  dsimp only
  cases hr : Edit.add owner body c.engine.graph with
  | ok id g => exact .added journal hname howner hmakes hr
  | error f g =>
    cases f with
    | refused why => exact .misplaced journal hname howner hmakes hr
    | broken how => exact ⟨⟩

/-- From where the owner is clear, nothing but the journal changes before the unit is added. -/
theorem addsUnit_of_owner {u : UnitEntry} {owner : Option UnitId} (hname : c.unit? u.name = none)
    (howner : OwnedBy c u owner) : Outcome (fun _ => True) (fun o => AddsUnit u c o.1 o.2)
      ((body u >>= fun body => change (.placement u.name (u.parent.getD ""))
        (Engine.edit (Edit.add owner body)) >>= fun id =>
          modify fun c => { c with names := c.names ++ [(u.name, id)] }).run.run c) := by
  rw [run_bind, run_body]
  split
  · next hsub => exact addsUnit_of_makes hname howner (.subgraph hsub) c.engine.journal
  · next hsub =>
    have hsub : u.isSubgraph = false := Bool.eq_false_iff.2 hsub
    cases hmade : Catalogue.create u.label (.parse 0 u.args) c.engine.settings #[] with
    | error how _ => exact ⟨⟩
    | ok made reports =>
      obtain ⟨journal, hjournal⟩ := exists_journal reports c.engine
      cases made with
      | none =>
        dsimp only
        rw [hjournal]
        exact .unlisted journal hname howner hsub hmade
      | some unit =>
        dsimp only
        rw [hjournal]
        exact addsUnit_of_makes hname howner (.device hsub hmade) journal

/-- A unit is added or refused, as far as no rule is broken in making and registering it. -/
theorem addsUnit (u : UnitEntry) (c : Construction) :
    Outcome (fun _ => True) (fun o => AddsUnit u c o.1 o.2) ((addUnit u).run.run c) := by
  unfold addUnit
  rw [run_get_bind]
  cases hname : c.unit? u.name with
  | some id => exact .duplicate (by rw [hname]; rfl)
  | none =>
    simp only [Option.isSome_none, Bool.false_eq_true, if_false]
    rw [run_bind, run_owner]
    have hplace : ∀ owner, OwnedBy c u owner → _ := fun owner howner =>
      addsUnit_of_owner hname howner
    cases hparent : u.parent with
    | none =>
      simp only [hparent] at hplace
      exact hplace none (by rw [OwnedBy, hparent])
    | some parent =>
      cases hid : c.unit? parent with
      | none =>
        dsimp only
        rw [hid]
        exact .orphan hname hparent hid
      | some id =>
        dsimp only
        rw [hid]
        simp only [hparent] at hplace
        exact hplace (some id) (by rw [OwnedBy, hparent]; exact ⟨id, hid, rfl⟩)

end Building

/-! ## Lists of entries -/

/-- What is wrong with the first entry of a list that makes no sense, if there is one. Each entry is
judged after those before it. -/
def firstFlaw? {α : Type} (flaw? : List α → α → Option ConfigError) :
    (before rest : List α) → Option ConfigError
  | _, [] => none
  | before, x :: rest => (flaw? before x).or (firstFlaw? flaw? (before ++ [x]) rest)

/-- How building ends if something is wrong, or nothing. -/
def ConfigError.verdict : Option ConfigError → Except ConfigError PUnit
  | none => .ok ⟨⟩
  | some why => .error why

theorem firstFlaw?_eq_none {α : Type} {flaw? : List α → α → Option ConfigError}
    {before rest : List α} : firstFlaw? flaw? before rest = none ↔
      ∀ front x back, rest = front ++ x :: back → flaw? (before ++ front) x = none := by
  induction rest generalizing before with
  | nil => simp [firstFlaw?]
  | cons x rest ih =>
    rw [firstFlaw?, Option.or_eq_none_iff, ih]
    constructor
    · rintro ⟨hfirst, hrest⟩ front y back h
      cases front with
      | nil =>
        obtain ⟨rfl, -⟩ := List.cons.inj h
        rwa [List.append_nil]
      | cons z front =>
        obtain ⟨rfl, hsplit⟩ := List.cons.inj h
        simpa using hrest front y back hsplit
    · intro h
      refine ⟨by simpa using h [] x rest rfl, fun front y back hsplit => ?_⟩
      simpa using h (x :: front) y back (by rw [hsplit]; rfl)

namespace Building

/-- What holds of each entry, judged after those before it, holds of a list of them: the first one that
makes no sense ends it, and without one all of them are built. -/
theorem outcome_forM {α : Type} {f : α → Building PUnit} {faulty : Fault → Prop}
    {flaw? : List α → α → Option ConfigError} {P : List α → Construction → Prop}
    (step : ∀ before x c, P before c → Outcome faulty
      (fun o => o.1 = ConfigError.verdict (flaw? before x) ∧ (flaw? before x = none → P (before ++ [x]) o.2))
      ((f x).run.run c))
    (rest before : List α) {c : Construction} (h : P before c) : Outcome faulty
      (fun o => o.1 = ConfigError.verdict (firstFlaw? flaw? before rest) ∧
        (firstFlaw? flaw? before rest = none → P (before ++ rest) o.2))
      ((rest.forM f).run.run c) := by
  induction rest generalizing before c with
  | nil => exact ⟨rfl, fun _ => by rwa [List.append_nil]⟩
  | cons x rest ih =>
    rw [firstFlaw?]
    show Outcome _ _ ((f x >>= fun _ => rest.forM f).run.run c)
    rw [run_bind]
    refine (step before x c h).bind fun o ho => ?_
    obtain ⟨r, c'⟩ := o
    obtain ⟨rfl, hnext⟩ := ho
    cases hflaw : flaw? before x with
    | none =>
      have hrest := ih (before ++ [x]) (hnext hflaw)
      rw [List.append_assoc] at hrest
      exact hrest
    | some why => exact ⟨rfl, nofun⟩

end Building
end Patchbay
