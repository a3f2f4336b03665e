import Patchbay.Host
import Patchbay.Proofs.Engine.Collecting

/-!
# What listeners hear

After each block a host passes the messages that its engine has collected to the listener, which may
work the same host meanwhile and compute further blocks. `Hearing` says what may come of this, as a
grammar of records: the messages of a block that ends with a listener installed are each heard once,
in the order in which they were collected, and between them stands what the reactions have led to.
Every run of a host follows it (`nothing_lost`). While a listener reacts it is not installed, so the
messages of a block that it computes then are lost, unless it has installed another before
(`lost_while_reacting`).
-/

namespace Patchbay

variable {U L N α : Type}

namespace Entry

/-- The message that was collected for the host. -/
def collected? : Entry N → Option (Symbol × Message)
  | .happened what => what.collected?
  | _ => none

/-- The message that a listener was passed. -/
def heard? : Entry N → Option (Symbol × Message)
  | .heard name message => some (name, message)
  | _ => none

end Entry

/-! ## Records -/

/-- How things stand between a host and its engine: whether a listener is installed, and which
messages have been collected and wait for the end of a block. -/
structure Standing where
  listening : Bool
  waiting : List (Symbol × Message)

/-- What may be recorded while messages that are `due` are passed to a listener, with all that its
reactions lead to, and which messages are lost in this. Only where the host may be `lax` a block ends
with no listener installed, or the engine computes one behind the host's back. -/
inductive Hearing (lax : Prop) :
    Standing → List (Symbol × Message) → List (Entry N) → List (Symbol × Message) → Standing → Prop
  | done (s : Standing) : Hearing lax s [] [] [] s
  | trans {s s₁ s' : Standing} {due lost lost' : List (Symbol × Message)} {es es' : List (Entry N)} :
      Hearing lax s [] es lost s₁ → Hearing lax s₁ due es' lost' s' →
      Hearing lax s due (es ++ es') (lost ++ lost') s'
  /-- The engine is worked. What it collects in this has to wait. -/
  | work (listening : Bool) (waiting : List (Symbol × Message)) {es : List (Entry N)} :
      (∀ a ∈ es, a.heard? = none) → lax ∨ es.filterMap Entry.collected? = [] →
      Hearing lax ⟨listening, waiting⟩ [] es [] ⟨listening, waiting ++ es.filterMap Entry.collected?⟩
  /-- A listener is installed. -/
  | listen {listening : Bool} {waiting : List (Symbol × Message)} :
      Hearing lax ⟨listening, waiting⟩ [] [] [] ⟨true, waiting⟩
  /-- A block is computed, and all that has been collected is passed to the listener, which is not
  installed until it is done. -/
  | block {listening : Bool} {waiting waiting' lost : List (Symbol × Message)}
      {es passed : List (Entry N)} : (∀ a ∈ es, a.heard? = none) →
      Hearing lax ⟨false, []⟩ (waiting ++ es.filterMap Entry.collected?) passed lost
        ⟨listening, waiting'⟩ →
      Hearing lax ⟨true, waiting⟩ [] (es ++ passed) lost ⟨true, waiting'⟩
  /-- A block is computed, and there is nobody to hear of it. -/
  | unheard {waiting : List (Symbol × Message)} {es : List (Entry N)} :
      lax → (∀ a ∈ es, a.heard? = none) →
      Hearing lax ⟨false, waiting⟩ [] es (waiting ++ es.filterMap Entry.collected?) ⟨false, []⟩
  /-- The next message is passed to the listener. -/
  | hear {s s' : Standing} {name : Symbol} {message : Message} {due lost : List (Symbol × Message)}
      {es : List (Entry N)} : Hearing lax s due es lost s' →
      Hearing lax s ((name, message) :: due) (.heard name message :: es) lost s'

namespace Hearing

variable {lax : Prop} {s s' : Standing} {due lost : List (Symbol × Message)} {es : List (Entry N)}

/-- A listener that is installed is only replaced. -/
theorem listening (h : Hearing lax s due es lost s') (hs : s.listening = true) :
    s'.listening = true := by
  induction h with
  | done | work => exact hs
  | trans _ _ ih ih' => exact ih' (ih hs)
  | listen | block => rfl
  | unheard => cases hs
  | hear _ ih => exact ih hs

/-- What is due is heard in order. -/
theorem sublist (h : Hearing lax s due es lost s') : due.Sublist (es.filterMap Entry.heard?) := by
  induction h with
  | trans _ _ _ ih' =>
    rw [List.filterMap_append]
    exact ih'.trans (List.sublist_append_right ..)
  | hear _ ih => exact ih.cons_cons _
  | _ => exact List.nil_sublist _

/-- Where the host is not lax no message is lost. -/
theorem lost_eq_nil (h : Hearing lax s due es lost s') (hlax : ¬ lax) : lost = [] := by
  induction h with
  | done | work | listen => rfl
  | trans _ _ ih ih' => rw [ih, ih', List.append_nil]
  | block _ _ ih | hear _ ih => exact ih
  | unheard hd => exact absurd hd hlax

/-- Nothing is left to wait. -/
theorem waiting_eq_nil (h : Hearing lax s due es lost s') (hlax : ¬ lax) (hs : s.waiting = []) :
    s'.waiting = [] := by
  induction h with
  | done | listen => exact hs
  | trans _ _ ih ih' => exact ih' (ih hs)
  | work _ _ _ hcollected => exact List.append_eq_nil_iff.2 ⟨hs, hcollected.resolve_left hlax⟩
  | block _ _ ih => exact ih rfl
  | unheard hl => exact absurd hl hlax
  | hear _ ih => exact ih hs

theorem heard_eq_nil (h : ∀ a ∈ es, a.heard? = none) : es.filterMap Entry.heard? = [] :=
  List.filterMap_eq_nil_iff.2 h

/-- Every message that waited, was due, or has been collected is heard, lost, or waits. -/
theorem perm (h : Hearing lax s due es lost s') :
    (s.waiting ++ due ++ es.filterMap Entry.collected?).Perm
      (es.filterMap Entry.heard? ++ lost ++ s'.waiting) := by
  induction h with
  | done s => simp
  | @trans s s₁ s' due lost lost' es es' _ _ ih ih' =>
    rw [← Multiset.coe_eq_coe] at ih ih' ⊢
    simp only [List.append_nil, List.filterMap_append, ← Multiset.coe_add] at ih ih' ⊢
    rw [add_add_add_comm, ih, add_assoc, ← add_assoc (Multiset.ofList s₁.waiting), ih']
    abel
  | work _ _ hes _ =>
    rw [heard_eq_nil hes, List.append_nil]
    exact .refl _
  | listen => simp
  | block hes _ ih =>
    simpa [heard_eq_nil hes] using ih
  | unheard _ hes => simp [heard_eq_nil hes]
  | @hear s s' name message due lost es _ ih =>
    rw [List.append_assoc] at ih
    have hcollected : (Entry.heard name message :: es).filterMap Entry.collected? =
        es.filterMap Entry.collected? := List.filterMap_cons_none rfl
    have hheard : (Entry.heard name message :: es).filterMap Entry.heard? =
        (name, message) :: es.filterMap Entry.heard? := List.filterMap_cons_some rfl
    rw [hcollected, hheard, List.append_assoc]
    exact List.perm_middle.trans (ih.cons (name, message))

end Hearing

/-! ## Reactions -/

namespace Reaction

/-- That a reaction leaves it to the host to take messages and, unless it may be `lax`, to compute
blocks, and lets it compute none before a listener is installed. -/
def Careful (lax : Prop) : Bool → Reaction U L N α → Prop
  | _, done _ => True
  | b, command c next => c ≠ .takeExternal ∧
    ((∀ input outLength, c ≠ .process input outLength) ∨ lax) ∧ ∀ reply, (next reply).Careful lax b
  | b, retell _ _ _ next => ∀ found, (next found).Careful lax b
  | b, inspect next => ∀ e, (next e).Careful lax b
  | _, listen _ next => next.Careful lax true
  | b, process _ _ next => (b = true ∨ lax) ∧ ∀ out, (next out).Careful lax b
  | b, note _ next => next.Careful lax b
  | _, fail _ => True

/-- That a reaction installs none but certain listeners, and ends in certain results. -/
def Brings (Q : L → Prop) (T : α → Prop) : Reaction U L N α → Prop
  | done result => T result
  | command _ next => ∀ reply, (next reply).Brings Q T
  | retell _ _ _ next => ∀ found, (next found).Brings Q T
  | inspect next => ∀ e, (next e).Brings Q T
  | listen l next => Q l ∧ next.Brings Q T
  | process _ _ next => ∀ out, (next out).Brings Q T
  | note _ next => next.Brings Q T
  | fail _ => True

end Reaction

namespace Host

variable [Device U] [Listener U L N] {lax : Prop} {h h' h'' : Host U L N}
  {due : List (Symbol × Message)}

/-- How things stand with a host. -/
def standing (h : Host U L N) : Standing := ⟨h.listener.isSome, h.engine.external.toList⟩

/-- That what has been recorded since is what may be recorded while messages that are due are passed
to a listener. -/
def Hears (lax : Prop) (due : List (Symbol × Message)) (h h' : Host U L N) : Prop :=
  ∃ es lost, h'.entries.toList = h.entries.toList ++ es ∧
    Hearing lax h.standing due es lost h'.standing ∧ h'.engine.journal = #[]

omit [Device U] [Listener U L N] in
theorem Hears.trans (h₁ : Hears lax [] h h') (h₂ : Hears lax due h' h'') : Hears lax due h h'' := by
  obtain ⟨es, lost, hes, hhearing, -⟩ := h₁
  obtain ⟨es', lost', hes', hhearing', hjournal⟩ := h₂
  refine ⟨es ++ es', lost ++ lost', ?_, hhearing.trans hhearing', hjournal⟩
  rw [hes', hes, List.append_assoc]

omit [Device U] [Listener U L N] in
theorem Hears.journal (h₁ : Hears lax due h h') : h'.engine.journal = #[] := by
  obtain ⟨es, lost, -, -, hjournal⟩ := h₁
  exact hjournal

omit [Device U] [Listener U L N] in
theorem Hears.listening (h₁ : Hears lax due h h') (hl : h.listener.isSome = true) :
    h'.listener.isSome = true := by
  obtain ⟨es, lost, -, hhearing, -⟩ := h₁
  exact hhearing.listening hl

omit [Device U] [Listener U L N] in
theorem Hears.refl (hj : h.engine.journal = #[]) : Hears lax [] h h :=
  ⟨[], [], (List.append_nil _).symm, .done _, hj⟩

/-! ## Work on the engine -/

/-- What an engine tells, as the host records it. -/
def told (e : Engine U) : List (Entry N) := e.journal.toList.map .happened

omit [Device U] in
theorem heard?_of_mem_told {e : Engine U} {a : Entry N} (ha : a ∈ told e) : a.heard? = none := by
  obtain ⟨what, -, rfl⟩ := List.mem_map.1 ha
  rfl

omit [Device U] in
theorem collected_told (e : Engine U) :
    (told e : List (Entry N)).filterMap Entry.collected? = e.journal.collected := by
  rw [told, List.filterMap_map]
  rfl

omit [Device U] [Listener U L N] in
theorem entries_withEngine (h : Host U L N) (e : Engine U) :
    (h.withEngine e).entries.toList = h.entries.toList ++ told e := by
  rw [withEngine, Array.toList_append, Array.toList_map]
  rfl

omit [Device U] [Listener U L N] in
/-- The engine is worked. -/
theorem hears_withEngine {e : Engine U} (he : e.Collects h.engine.external.toList)
    (hcollected : lax ∨ e.journal.collected = []) : Hears lax [] h (h.withEngine e) := by
  refine ⟨told e, [], entries_withEngine h e, ?_, rfl⟩
  have hquiet : ∀ a ∈ (told e : List (Entry N)), a.heard? = none := fun _ => heard?_of_mem_told
  rw [← collected_told (N := N) e] at hcollected
  have hwork := Hearing.work h.listener.isSome h.engine.external.toList hquiet hcollected
  rw [collected_told, ← he] at hwork
  exact hwork

omit [Device U] [Listener U L N] in
theorem collects_self {e : Engine U} (hj : e.journal = #[]) : e.Collects e.external.toList := by
  rw [Engine.Collects, hj]
  exact (List.append_nil _).symm

omit [Device U] in
theorem collected_eq_nil {e : Engine U} (hj : e.journal = #[]) : e.journal.collected = [] := by
  rw [hj]
  rfl

omit [Device U] [Listener U L N] in
/-- A change that no broken rule has stopped has been made, or refused. -/
theorem change_eq_ok {β : Type} {c : Change U β} {reply : Except GraphError β}
    (hrun : change c h = .ok reply h') :
    ∃ e, h' = h.withEngine e ∧
      ((∃ result, c h.engine = .ok result e) ∨ ∃ why, c h.engine = .error (.refused why) e) := by
  unfold change at hrun
  cases hr : c h.engine with
  | ok result e =>
    rw [hr] at hrun
    cases hrun
    exact ⟨e, rfl, .inl ⟨result, rfl⟩⟩
  | error how e =>
    rw [hr] at hrun
    cases how with
    | refused why =>
      cases hrun
      exact ⟨e, rfl, .inr ⟨why, rfl⟩⟩
    | broken how => cases hrun

omit [Device U] [Listener U L N] in
theorem listener_of_change {β : Type} {c : Change U β} {reply : Except GraphError β}
    (hrun : change c h = .ok reply h') : h'.listener = h.listener := by
  obtain ⟨e, rfl, -⟩ := change_eq_ok hrun
  rfl

omit [Listener U L N] in
/-- A command that the engine has carried out, or refused. -/
theorem hears_command {c : Engine.Command U} (htake : c ≠ .takeExternal)
    (hc : (∀ input outLength, c ≠ .process input outLength) ∨ lax) (hj : h.engine.journal = #[])
    {reply : Except GraphError (Engine.Reply U)} (hrun : change (Engine.perform c) h = .ok reply h') :
    Hears lax [] h h' := by
  obtain ⟨e, rfl, hperform⟩ := change_eq_ok hrun
  have hdoes := Engine.does_perform (e := h.engine) c
  have hdeed : Engine.Deed c h.engine e := by
    rcases hperform with ⟨result, hr⟩ | ⟨why, hr⟩
    · rw [hr] at hdoes
      exact hdoes
    · rw [hr] at hdoes
      exact hdoes why rfl
  refine hears_withEngine (Engine.collects_of_deed hdeed htake (collects_self hj)) ?_
  refine hc.symm.imp_right fun hprocess => ?_
  exact (Engine.collected_of_deed hdeed hprocess).trans (collected_eq_nil hj)

omit [Listener U L N] in
theorem hears_retell {id : UnitId} {inlet : Nat} {counts : List Nat} (hj : h.engine.journal = #[])
    {reply : Except GraphError Bool} (hrun : change (Engine.retell id inlet counts) h = .ok reply h') :
    Hears lax [] h h' := by
  have hcollects := collects_self hj
  unfold change Engine.retell at hrun
  rw [run_get_bind] at hrun
  cases hfound : h.engine.graph.contains id with
  | false =>
    rw [hfound] at hrun
    cases hrun
    exact hears_withEngine hcollects (.inr (collected_eq_nil hj))
  | true =>
    rw [hfound] at hrun
    cases hrun
    refine hears_withEngine (hcollects.withGraph _) (.inr ?_)
    exact (Engine.collected_withGraph h.engine _).trans (collected_eq_nil hj)

omit [Listener U L N] in
/-- A block is computed, and all that the engine has collected is handed over. -/
theorem processSilently_eq_ok {input out : Samples} {outLength : Nat}
    {messages : List (Symbol × Message)}
    (hrun : processSilently input outLength h = .ok (out, messages) h') :
    ∃ e, Engine.process input outLength h.engine = .ok out e ∧ messages = e.external.toList ∧
      h' = h.withEngine { e with external := #[] } := by
  unfold processSilently at hrun
  cases hp : Engine.process input outLength h.engine with
  | error how e =>
    rw [hp] at hrun
    cases hrun
  | ok samples e =>
    rw [hp] at hrun
    cases hrun
    exact ⟨e, rfl, rfl, rfl⟩

omit [Listener U L N] in
theorem listener_of_processSilently {input out : Samples} {outLength : Nat}
    {messages : List (Symbol × Message)}
    (hrun : processSilently input outLength h = .ok (out, messages) h') :
    h'.listener = h.listener := by
  obtain ⟨e, -, -, rfl⟩ := processSilently_eq_ok hrun
  rfl

omit [Listener U L N] in
/-- What is handed over after a block is what had waited, and what the record says to have been
collected in the block. -/
theorem handed_of_processSilently {input out : Samples} {outLength : Nat}
    {messages : List (Symbol × Message)} (hj : h.engine.journal = #[])
    (hrun : processSilently input outLength h = .ok (out, messages) h') :
    ∃ es : List (Entry N), h'.entries.toList = h.entries.toList ++ es ∧ (∀ a ∈ es, a.heard? = none) ∧
      messages = h.engine.external.toList ++ es.filterMap Entry.collected? ∧
      h'.engine.external = #[] ∧ h'.engine.journal = #[] := by
  obtain ⟨e, hp, rfl, rfl⟩ := processSilently_eq_ok hrun
  refine ⟨told e, entries_withEngine h { e with external := #[] }, fun _ => heard?_of_mem_told, ?_,
    rfl, rfl⟩
  rw [collected_told]
  exact Engine.collects_of_process hp (collects_self hj)

/-! ## Runs -/

section Runs

variable {process : Samples → Nat → HostWork U L N Samples} {β : Type}

theorem passOn_cons_eq_ok {l l' : L} {name : Symbol} {message : Message}
    {messages : List (Symbol × Message)}
    (hrun : passOn process l ((name, message) :: messages) h = .ok l' h') :
    ∃ l₁ h₁, run process (Listener.react l name message) (h.enter (.heard name message)) = .ok l₁ h₁ ∧
      passOn process l₁ messages h₁ = .ok l' h' := by
  rw [passOn, List.foldlM_cons] at hrun
  obtain ⟨l₁, h₁, hfirst, hrun⟩ := run_bind_eq_ok.1 hrun
  dsimp only at hfirst
  rw [run_modify_bind] at hfirst
  exact ⟨l₁, h₁, hfirst, hrun⟩

/-- What a block comes to. While its messages are heard no listener is installed, but for those that
the reactions install; only if there is none afterwards the one before takes its place again. -/
theorem process_succ_eq_ok {depth : Nat} {input out : Samples} {outLength : Nat}
    (hrun : Host.process (depth + 1) input outLength h = .ok out h') :
    ∃ messages h₁, processSilently input outLength h = .ok (out, messages) h₁ ∧
      ((messages = [] ∨ h₁.listener = none) ∧ h' = h₁ ∨
        ∃ l l' h₂, h₁.listener = some l ∧
          passOn (Host.process depth) l messages { h₁ with listener := none } = .ok l' h₂ ∧
          h' = { h₂ with listener := h₂.listener <|> some l' }) := by
  rw [Host.process] at hrun
  obtain ⟨⟨samples, messages⟩, h₁, hblock, hrun⟩ := run_bind_eq_ok.1 hrun
  dsimp only at hrun
  rw [run_get_bind] at hrun
  cases messages with
  | nil =>
    cases hrun
    exact ⟨[], h', hblock, .inl ⟨.inl rfl, rfl⟩⟩
  | cons m rest =>
    cases hl : h₁.listener with
    | none =>
      simp only [hl] at hrun
      cases hrun
      exact ⟨_, h', hblock, .inl ⟨.inr hl, rfl⟩⟩
    | some l =>
      simp only [hl] at hrun
      rw [run_modify_bind] at hrun
      obtain ⟨l', h₂, hpassed, hrun⟩ := run_bind_eq_ok.1 hrun
      rw [run_modify_bind] at hrun
      cases hrun
      exact ⟨_, h₁, hblock, .inr ⟨l, l', h₂, hl, hpassed, rfl⟩⟩

variable (hprocess : ∀ input outLength (h : Host U L N) out h',
    process input outLength h = .ok out h' → h.engine.journal = #[] →
    h.listener.isSome = true ∨ lax → Hears lax [] h h')
  (hreact : ∀ (l : L) name message,
    (Listener.react l name message : Reaction U L N L).Careful lax false)
include hprocess

omit [Listener U L N] in
/-- Whatever a reaction does, the record says so. -/
theorem hears_run {r : Reaction U L N β} {b : Bool} {result : β} (hr : r.Careful lax b)
    (hb : b = true → h.listener.isSome = true) (hj : h.engine.journal = #[])
    (hrun : run process r h = .ok result h') : Hears lax [] h h' := by
  induction r generalizing h b with
  | done a =>
    cases hrun
    exact .refl hj
  | command c next ih =>
    obtain ⟨htake, hc, hnext⟩ := hr
    obtain ⟨reply, h₁, hchange, hrun⟩ := run_bind_eq_ok.1 hrun
    have hworked := hears_command htake hc hj hchange
    have hb' := fun h => hworked.listening (hb h)
    exact hworked.trans (ih reply (hnext reply) hb' hworked.journal hrun)
  | retell id inlet counts next ih =>
    rw [run] at hrun
    obtain ⟨reply, h₁, hchange, hrun⟩ := run_bind_eq_ok.1 hrun
    have hworked : Hears lax [] h h₁ := hears_retell hj hchange
    have hb' := fun h => hworked.listening (hb h)
    cases reply with
    | ok found => exact hworked.trans (ih found (hr found) hb' hworked.journal hrun)
    | error why => exact hworked.trans (ih false (hr false) hb' hworked.journal hrun)
  | inspect next ih =>
    rw [run, run_get_bind] at hrun
    exact ih h.engine (hr h.engine) hb hj hrun
  | listen l next ih =>
    rw [run, run_modify_bind] at hrun
    have hlistens : Hears lax [] h { h with listener := some l } :=
      ⟨[], [], (List.append_nil _).symm, .listen, hj⟩
    exact hlistens.trans (ih hr (fun _ => rfl) hj hrun)
  | process input outLength next ih =>
    obtain ⟨hlistens, hnext⟩ := hr
    obtain ⟨out, h₁, hblock, hrun⟩ := run_bind_eq_ok.1 hrun
    have hheard := hprocess _ _ _ _ _ hblock hj (hlistens.imp_left hb)
    exact hheard.trans (ih out (hnext out) (fun h => hheard.listening (hb h)) hheard.journal hrun)
  | note n next ih =>
    rw [run, run_modify_bind] at hrun
    have hnoted : Hears lax [] h (h.enter (.noted n)) := by
      refine ⟨[.noted n], [], Array.toList_push, ?_, hj⟩
      have hquiet : ∀ a ∈ [(.noted n : Entry N)], a.heard? = none := List.forall_mem_singleton.2 rfl
      have hwork := Hearing.work h.listener.isSome h.engine.external.toList hquiet (.inr rfl : lax ∨ _)
      rw [List.filterMap_cons_none rfl, List.filterMap_nil, List.append_nil] at hwork
      exact hwork
    exact hnoted.trans (ih hr hb hj hrun)
  | fail how => cases hrun

include hreact in
/-- Messages are passed to a listener one after another. -/
theorem hears_passOn {l l' : L} {messages : List (Symbol × Message)} (hj : h.engine.journal = #[])
    (hrun : passOn process l messages h = .ok l' h') : Hears lax messages h h' := by
  induction messages generalizing h l with
  | nil =>
    cases hrun
    exact .refl hj
  | cons m messages ih =>
    obtain ⟨name, message⟩ := m
    obtain ⟨l₁, h₁, hfirst, hrun⟩ := passOn_cons_eq_ok hrun
    have hreacted : Hears lax [] (h.enter (.heard name message)) h₁ :=
      hears_run hprocess (hreact l name message) (fun hb => by cases hb) hj hfirst
    obtain ⟨es, lost, hes, hhearing, hjournal⟩ := hreacted.trans (ih hreacted.journal hrun)
    have hentries : (h.enter (.heard name message)).entries.toList =
        h.entries.toList ++ [.heard name message] := Array.toList_push
    refine ⟨.heard name message :: es, lost, ?_, .hear hhearing, hjournal⟩
    rw [hes, hentries, List.append_assoc]
    rfl

end Runs

section Blocks

variable (hreact : ∀ (l : L) name message,
    (Listener.react l name message : Reaction U L N L).Careful lax false)
include hreact

/-- A block ends with a listener installed, and all that was collected is passed to it. -/
theorem delivers_process {depth : Nat} {input out : Samples} {outLength : Nat}
    (hblocks : ∀ input outLength (h : Host U L N) out h',
      process depth input outLength h = .ok out h' → h.engine.journal = #[] →
      h.listener.isSome = true ∨ lax → Hears lax [] h h')
    (hj : h.engine.journal = #[]) (hlistens : h.listener.isSome = true)
    (hrun : process (depth + 1) input outLength h = .ok out h') :
    ∃ messages h₁ passed lost listening,
      processSilently input outLength h = .ok (out, messages) h₁ ∧
      h'.entries.toList = h₁.entries.toList ++ passed ∧
      Hearing lax ⟨false, []⟩ messages passed lost ⟨listening, h'.engine.external.toList⟩ ∧
      h'.listener.isSome = true ∧ h'.engine.journal = #[] := by
  obtain ⟨messages, h₁, hblock, hpass⟩ := process_succ_eq_ok hrun
  obtain ⟨-, -, -, -, hexternal, hjournal⟩ := handed_of_processSilently hj hblock
  rw [← listener_of_processSilently hblock] at hlistens
  rcases hpass with ⟨hempty | hnone, rfl⟩ | ⟨l, l', h₂, -, hpassed, rfl⟩
  · refine ⟨messages, h', [], [], false, hblock, (List.append_nil _).symm, ?_, hlistens, hjournal⟩
    rw [hempty, hexternal]
    exact .done _
  · rw [hnone] at hlistens
    cases hlistens
  · obtain ⟨passed, lost, hpassed, hhearing, hjournal'⟩ :=
      hears_passOn (h := { h₁ with listener := none }) hblocks hreact hjournal hpassed
    have hopened : ({ h₁ with listener := none } : Host U L N).standing = ⟨false, []⟩ := by
      rw [standing, hexternal]
      rfl
    have hagain : (h₂.listener <|> some l').isSome = true := by
      cases h₂.listener <;> rfl
    rw [hopened] at hhearing
    exact ⟨messages, h₁, passed, lost, h₂.listener.isSome, hblock, hpassed, hhearing, hagain, hjournal'⟩

/-- A block ends: what has been collected is passed to the listener, or lost if there is none. -/
theorem hears_process {depth : Nat} {input out : Samples} {outLength : Nat}
    (hj : h.engine.journal = #[]) (hlistens : h.listener.isSome = true ∨ lax)
    (hrun : process depth input outLength h = .ok out h') : Hears lax [] h h' := by
  induction depth generalizing input outLength out h h' with
  | zero => cases hrun
  | succ depth ih =>
    cases hl : h.listener with
    | none =>
      obtain ⟨messages, h₁, hblock, hpass⟩ := process_succ_eq_ok hrun
      obtain ⟨es, hes, hquiet, hmessages, hexternal, hjournal⟩ := handed_of_processSilently hj hblock
      have hnone := (listener_of_processSilently hblock).trans hl
      have hmay : lax := by
        rw [hl] at hlistens
        exact hlistens.resolve_left Bool.false_ne_true
      rcases hpass with ⟨-, rfl⟩ | ⟨l, l', h₂, hsome, -, -⟩
      · refine ⟨es, messages, hes, ?_, hjournal⟩
        rw [standing, standing, hl, hnone, hexternal, hmessages]
        exact .unheard hmay hquiet
      · cases hnone.symm.trans hsome
    | some l =>
      have hlisten : h.listener.isSome = true := by rw [hl]; rfl
      obtain ⟨messages, h₁, passed, lost, listening, hblock, hpassed, hhearing, hagain, hjournal⟩ :=
        delivers_process hreact (fun _ _ _ _ _ hrun hj hl => ih hj hl hrun) hj hlisten hrun
      obtain ⟨es, hes, hquiet, rfl, -, -⟩ := handed_of_processSilently hj hblock
      refine ⟨es ++ passed, lost, ?_, ?_, hjournal⟩
      · rw [hpassed, hes, List.append_assoc]
      · rw [standing, standing, hlisten, hagain]
        exact .block hquiet hhearing

end Blocks

/-! ## Listeners that take the place of others -/

/-- That an installed listener is only replaced, and none but certain listeners are installed if there
was no other before. -/
def Keeps (Q : L → Prop) (installed installed' : Option L) : Prop :=
  (installed.isSome = true → installed'.isSome = true) ∧
    ((∀ l ∈ installed, Q l) → ∀ l ∈ installed', Q l)

section Installed

variable {Q : L → Prop} {process : Samples → Nat → HostWork U L N Samples} {β : Type}

theorem Keeps.refl (installed : Option L) : Keeps Q installed installed := ⟨id, id⟩

theorem Keeps.trans {o o' o'' : Option L} (h₁ : Keeps Q o o') (h₂ : Keeps Q o' o'') : Keeps Q o o'' :=
  ⟨h₂.1 ∘ h₁.1, h₂.2 ∘ h₁.2⟩

theorem Keeps.install {l : L} (hl : Q l) (o : Option L) : Keeps Q o (some l) :=
  ⟨fun _ => rfl, fun _ _ hl' => Option.some.inj hl' ▸ hl⟩

variable (hprocess : ∀ input outLength (h : Host U L N) out h',
    process input outLength h = .ok out h' → Keeps Q h.listener h'.listener)
  (hreact : ∀ (l : L) name message,
    (Listener.react l name message : Reaction U L N L).Brings Q fun l' => Q l → Q l')
include hprocess

omit [Listener U L N] in
theorem keeps_run {r : Reaction U L N β} {T : β → Prop} {result : β} (hr : r.Brings Q T)
    (hrun : run process r h = .ok result h') : T result ∧ Keeps Q h.listener h'.listener := by
  induction r generalizing h with
  | done a =>
    cases hrun
    exact ⟨hr, .refl _⟩
  | command c next ih =>
    obtain ⟨reply, h₁, hchange, hrun⟩ := run_bind_eq_ok.1 hrun
    rw [← listener_of_change hchange]
    exact ih reply (hr reply) hrun
  | retell id inlet counts next ih =>
    rw [run] at hrun
    obtain ⟨reply, h₁, hchange, hrun⟩ := run_bind_eq_ok.1 hrun
    rw [← listener_of_change hchange]
    cases reply with
    | ok found => exact ih found (hr found) hrun
    | error why => exact ih false (hr false) hrun
  | inspect next ih =>
    rw [run, run_get_bind] at hrun
    exact ih h.engine (hr h.engine) hrun
  | listen l next ih =>
    obtain ⟨hl, hnext⟩ := hr
    rw [run, run_modify_bind] at hrun
    obtain ⟨hresult, hkeeps⟩ := ih hnext hrun
    exact ⟨hresult, (Keeps.install hl _).trans hkeeps⟩
  | process input outLength next ih =>
    obtain ⟨out, h₁, hblock, hrun⟩ := run_bind_eq_ok.1 hrun
    obtain ⟨hresult, hkeeps⟩ := ih out (hr out) hrun
    exact ⟨hresult, (hprocess _ _ _ _ _ hblock).trans hkeeps⟩
  | note n next ih =>
    rw [run, run_modify_bind] at hrun
    obtain ⟨hresult, hkeeps⟩ := ih hr hrun
    exact ⟨hresult, hkeeps⟩
  | fail how => cases hrun

include hreact in
theorem keeps_passOn {l l' : L} {messages : List (Symbol × Message)}
    (hrun : passOn process l messages h = .ok l' h') :
    (Q l → Q l') ∧ Keeps Q h.listener h'.listener := by
  induction messages generalizing h l with
  | nil =>
    cases hrun
    exact ⟨id, .refl _⟩
  | cons m messages ih =>
    obtain ⟨name, message⟩ := m
    obtain ⟨l₁, h₁, hfirst, hrun⟩ := passOn_cons_eq_ok hrun
    obtain ⟨hl₁, hkeeps₁⟩ := keeps_run hprocess (hreact l name message) hfirst
    obtain ⟨hl', hkeeps'⟩ := ih hrun
    exact ⟨hl' ∘ hl₁, hkeeps₁.trans hkeeps'⟩

end Installed

section Lasting

variable {Q : L → Prop} (hreact : ∀ (l : L) name message,
    (Listener.react l name message : Reaction U L N L).Brings Q fun l' => Q l → Q l')
include hreact

theorem keeps_process {depth : Nat} {input out : Samples} {outLength : Nat}
    (hrun : process depth input outLength h = .ok out h') : Keeps Q h.listener h'.listener := by
  induction depth generalizing input outLength out h h' with
  | zero => cases hrun
  | succ depth ih =>
    obtain ⟨messages, h₁, hblock, hpass⟩ := process_succ_eq_ok hrun
    rw [← listener_of_processSilently hblock]
    rcases hpass with ⟨-, rfl⟩ | ⟨l, l', h₂, hl, hpassed, rfl⟩
    · exact .refl _
    · obtain ⟨hl', -, hnew⟩ := keeps_passOn (fun _ _ _ _ _ => ih) hreact hpassed
      have hnew := hnew fun _ hm => by cases hm
      rw [hl]
      cases hslot : h₂.listener with
      | some m =>
        rw [hslot] at hnew
        exact .install (hnew m rfl) _
      | none => exact ⟨fun _ => rfl, fun hQ m hm => Option.some.inj hm ▸ hl' (hQ l rfl)⟩

/-- When a reaction has installed a listener, that one or one that has taken its place is there after
the block, and not the one that was passed the messages. -/
theorem lasts_process {depth : Nat} {input out out' : Samples} {outLength : Nat}
    {pre post : List (Symbol × Message)} {l l' : L} {h₁ s : Host U L N}
    (hblock : processSilently input outLength h = .ok (out, pre ++ post) h₁)
    (hl : h₁.listener = some l)
    (hpre : passOn (process depth) l pre { h₁ with listener := none } = .ok l' s)
    (hs : s.listener.isSome = true) (hrun : process (depth + 1) input outLength h = .ok out' h') :
    ∃ m, h'.listener = some m ∧ Q m := by
  have hblocks : ∀ input outLength (h : Host U L N) out h',
      process depth input outLength h = .ok out h' → Keeps Q h.listener h'.listener :=
    fun _ _ _ _ _ => keeps_process hreact
  obtain ⟨messages, k₁, hblock', hpass⟩ := process_succ_eq_ok hrun
  cases hblock.symm.trans hblock'
  rcases hpass with ⟨hnone, -⟩ | ⟨k, k', h₂, hk, hpassed, rfl⟩
  · rcases hnone with hempty | hnone
    · -- nothing has been heard, so nothing can have been installed
      rw [(List.append_eq_nil_iff.1 hempty).1] at hpre
      cases hpre
      cases hs
    · cases hl.symm.trans hnone
  · cases hl.symm.trans hk
    rw [passOn, List.foldlM_append] at hpassed
    obtain ⟨l₁, s₁, hfirst, hrest⟩ := run_bind_eq_ok.1 hpassed
    cases hpre.symm.trans hfirst
    obtain ⟨-, -, hnew⟩ := keeps_passOn hblocks hreact hpre
    obtain ⟨-, hstays, hagain⟩ := keeps_passOn hblocks hreact hrest
    have hnew := hagain (hnew fun _ hm => by cases hm)
    obtain ⟨m, hm⟩ := Option.isSome_iff_exists.1 (hstays hs)
    refine ⟨m, ?_, hnew m hm⟩
    show (h₂.listener <|> some k') = some m
    rw [hm]
    rfl

end Lasting

/-! ## Hosts that listen -/

/-- Every run of a host follows the grammar. Each message that its engine collects is heard once, in
the order of collection within its block, as long as reactions compute no block before they have
installed a listener; if they do (`lax`), the messages of a block that ends with no listener installed
are lost, and all others are heard. Once there is a listener there is always one, and one that a
reaction installs is only replaced by one that is installed later, or by what it becomes itself. -/
theorem nothing_lost {lax : Prop} {r : Reaction U L N α} {a : α} {h k : Host U L N} (depth : Nat)
    (hreact : ∀ (l : L) name message,
      (Listener.react l name message : Reaction U L N L).Careful lax false)
    (hr : r.Careful lax h.listener.isSome) (hj : h.engine.journal = #[])
    (hrun : run (process depth) r h = .ok a k) :
    (∃ es lost, k.entries.toList = h.entries.toList ++ es ∧
      Hearing lax h.standing [] es lost k.standing ∧
      (h.engine.external.toList ++ es.filterMap Entry.collected?).Perm
        (es.filterMap Entry.heard? ++ lost ++ k.engine.external.toList) ∧
      (¬ lax → lost = [] ∧ (h.engine.external = #[] → k.engine.external = #[]))) ∧
    (∀ {depth input outLength out} {g g' : Host U L N}, g.engine.journal = #[] →
      g.listener.isSome = true → process (depth + 1) input outLength g = .ok out g' →
      ∃ messages g₁ passed, processSilently input outLength g = .ok (out, messages) g₁ ∧
        g'.entries.toList = g₁.entries.toList ++ passed ∧
        messages.Sublist (passed.filterMap Entry.heard?)) ∧
    (h.listener.isSome = true → k.listener.isSome = true) ∧
    ∀ Q : L → Prop,
      (∀ (l : L) name message,
        (Listener.react l name message : Reaction U L N L).Brings Q fun l' => Q l → Q l') →
      (r.Brings Q (fun _ => True) → (∀ l ∈ h.listener, Q l) → ∀ l ∈ k.listener, Q l) ∧
      ∀ {depth input outLength out out' pre post l l'} {g g₁ s g' : Host U L N},
        processSilently input outLength g = .ok (out, pre ++ post) g₁ → g₁.listener = some l →
        passOn (process depth) l pre { g₁ with listener := none } = .ok l' s →
        s.listener.isSome = true → process (depth + 1) input outLength g = .ok out' g' →
        ∃ m, g'.listener = some m ∧ Q m := by
  have hblocks : ∀ depth input outLength (h : Host U L N) out h',
      process depth input outLength h = .ok out h' → h.engine.journal = #[] →
      h.listener.isSome = true ∨ lax → Hears lax [] h h' :=
    fun _ _ _ _ _ _ hblock hj hl => hears_process hreact hj hl hblock
  have hears := hears_run (hblocks depth) hr id hj hrun
  refine ⟨?_, fun hj hl hblock => ?_, hears.listening,
    fun Q hQ => ⟨fun hbrings hinstalled => ?_, lasts_process hQ⟩⟩
  · obtain ⟨es, lost, hes, hhearing, -⟩ := hears
    refine ⟨es, lost, hes, hhearing, ?_, fun hlax => ⟨hhearing.lost_eq_nil hlax, fun hnone => ?_⟩⟩
    · have hperm := hhearing.perm
      rw [List.append_nil] at hperm
      exact hperm
    · have hempty : h.standing.waiting = [] := congrArg Array.toList hnone
      exact Array.toList_eq_nil_iff.1 (hhearing.waiting_eq_nil hlax hempty)
  · obtain ⟨messages, g₁, passed, lost, listening, hblock, hpassed, hhearing, -⟩ :=
      delivers_process hreact (hblocks _) hj hl hblock
    exact ⟨messages, g₁, passed, hblock, hpassed, hhearing.sublist⟩
  · obtain ⟨-, -, hkeeps⟩ := keeps_run (fun _ _ _ _ _ => keeps_process hQ) hbrings hrun
    exact hkeeps hinstalled

/-- Two names at which the engine receives, and two to which it sends what it has received there. -/
def outpost : Engine CatalogueUnit where
  settings := Engine.smallBlocks
  graph :=
    { nodes :=
        #[ some { body := .device (.messageReceiver ⟨.ofString "now"⟩), ports := { messageOutlets := 1 }
                  registration := some (.receiver (.ofString "now")) },
          some { body := .device (.messageSender ⟨.ofString "host"⟩), ports := { messageInlets := 1 } },
          some { body := .device (.messageReceiver ⟨.ofString "later"⟩), ports := { messageOutlets := 1 }
                 registration := some (.receiver (.ofString "later")) },
          some { body := .device (.messageSender ⟨.ofString "reply"⟩), ports := { messageInlets := 1 } } ]
      connections := [⟨⟨0⟩, 0, ⟨1⟩, 0⟩, ⟨⟨2⟩, 0, ⟨3⟩, 0⟩]
      names := { blockSize := 8
                 receiverLists := [(.ofString "now", [⟨0⟩]), (.ofString "later", [⟨2⟩])]
                 externals := [.ofString "host", .ofString "reply"] }
      pool := { blockSize := 8 }
      plan := some { steps := #[], bindings := #[{}, {}, {}, {}], buffers := 0 } }

theorem reachable_outpost : Engine.Reachable Engine.smallBlocks outpost := by
  have hbuilt : Engine.build Engine.smallBlocks [
      .addUnit none (CatalogueUnit.messageReceiver ⟨.ofString "now"⟩),
      .addUnit none (.messageSender ⟨.ofString "host"⟩),
      .addUnit none (.messageReceiver ⟨.ofString "later"⟩),
      .addUnit none (.messageSender ⟨.ofString "reply"⟩), .connect ⟨⟨0⟩, 0, ⟨1⟩, 0⟩,
      .connect ⟨⟨2⟩, 0, ⟨3⟩, 0⟩, .registerExternal "host", .registerExternal "reply",
      .compile ] = some outpost := by cbv
  exact (Engine.roomy_of_build hbuilt).reachable

/-- One message for this block and one for the next, and then a block. -/
def twoMessages (L : Type) : Reaction CatalogueUnit L Unit Samples :=
  .command (.sendTo "now" (.bang 0)) fun _ => .command (.sendTo "later" (.bang 8)) fun _ =>
    .process #[] 8 .done

/-- A listener that lets another one take its place, and then computes a block when it hears of the
first message. -/
inductive Relieved
  | first
  | second
deriving DecidableEq

instance : Listener CatalogueUnit Relieved Unit where
  react
    | .first, _, _ => .listen .second (.process #[] 8 fun _ => .done .first)
    | .second, _, _ => .done .second

theorem careful_relieved (l : Relieved) (name : Symbol) (message : Message) :
    (Listener.react l name message : Reaction CatalogueUnit Relieved Unit Relieved).Careful False
      false := by
  cases l with
  | first => exact ⟨.inl rfl, fun _ => ⟨⟩⟩
  | second => exact ⟨⟩

/-- The second listener hears of the block that the first one computes, and stays. -/
theorem nothing_lost_relieved : ∃ (h' : Host CatalogueUnit Relieved Unit) (out : Samples),
    Engine.Reachable Engine.smallBlocks outpost ∧
    (∀ l name message, (Listener.react l name message :
      Reaction CatalogueUnit Relieved Unit Relieved).Careful False false) ∧
    (twoMessages Relieved).Careful False true ∧
    act (twoMessages Relieved) ⟨outpost, some .first, #[]⟩ = .ok out h' ∧
    h'.entries.toList.filterMap Entry.heard? =
      [(.ofString "host", .bang 0), (.ofString "reply", .bang 8)] ∧
    h'.listener = some .second ∧
    (h'.entries.toList.filterMap Entry.collected?).Perm
      (h'.entries.toList.filterMap Entry.heard?) := by
  have hcareful : (twoMessages Relieved).Careful False true :=
    ⟨by simp, .inl (by simp), fun _ => ⟨by simp, .inl (by simp), fun _ => ⟨.inl rfl, fun _ => ⟨⟩⟩⟩⟩
  have hrun : (match act (twoMessages Relieved) ⟨outpost, some .first, #[]⟩ with
      | .ok _ h' => decide (h'.entries.toList.filterMap Entry.heard? =
          [(.ofString "host", .bang 0), (.ofString "reply", .bang 8)] ∧ h'.listener = some .second)
      | .error .. => false) = true := by decide +kernel
  split at hrun
  · next out h' hact =>
    obtain ⟨hheard, hlistener⟩ := of_decide_eq_true hrun
    have hnested : run (process nestingLimit) (twoMessages Relieved) ⟨outpost, some .first, #[]⟩ =
        .ok out h' := hact
    have hlossless := nothing_lost (h := ⟨outpost, some .first, #[]⟩) (k := h') (a := out)
      nestingLimit careful_relieved hcareful rfl
    obtain ⟨⟨es, lost, hes, -, hperm, hlost⟩, -⟩ := hlossless hnested
    obtain ⟨rfl, hexternal⟩ := hlost not_false
    rw [hexternal rfl, List.append_nil, List.append_nil] at hperm
    refine ⟨h', out, reachable_outpost, careful_relieved, hcareful, hact, hheard, hlistener, ?_⟩
    rw [hes]
    exact hperm
  · cases hrun

/-- A listener that computes a block, with nobody to listen meanwhile, when it hears of a message to
the host. -/
inductive Impatient
  | listener

instance : Listener CatalogueUnit Impatient Unit where
  react l name _ := if name.text = "host" then .process #[] 8 fun _ => .done l else .done l

/-- What is collected while a listener reacts is lost, though a listener has been installed all along.
-/
theorem lost_while_reacting : ∃ (h' : Host CatalogueUnit Impatient Unit) (out : Samples),
    Engine.Reachable Engine.smallBlocks outpost ∧
    act (twoMessages Impatient) ⟨outpost, some .listener, #[]⟩ = .ok out h' ∧
    h'.entries.toList.filterMap Entry.collected? =
      [(.ofString "host", .bang 0), (.ofString "reply", .bang 8)] ∧
    h'.entries.toList.filterMap Entry.heard? = [(.ofString "host", .bang 0)] ∧
    h'.engine.external = #[] ∧ h'.listener.isSome = true := by
  have hrun : (match act (twoMessages Impatient) ⟨outpost, some .listener, #[]⟩ with
      | .ok _ h' => decide (h'.entries.toList.filterMap Entry.collected? =
          [(.ofString "host", .bang 0), (.ofString "reply", .bang 8)] ∧
          h'.entries.toList.filterMap Entry.heard? = [(.ofString "host", .bang 0)] ∧
          h'.engine.external = #[] ∧ h'.listener.isSome = true)
      | .error .. => false) = true := by decide +kernel
  split at hrun
  · next out h' hact => exact ⟨h', out, reachable_outpost, hact, of_decide_eq_true hrun⟩
  · cases hrun

end Host
end Patchbay
