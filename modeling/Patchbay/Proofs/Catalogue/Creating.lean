import Patchbay.Proofs.Catalogue.DelayLine

/-!
# Units are made from any arguments

An argument that makes no sense is reported and a default stands in for it, so all that the catalogue
lists can be made from whatever arguments (`gives_of_entry`). What can go wrong is the length of a
delay line: the time is rounded up to whole blocks, one more block is added, and neither is held to what
can be counted (`lineSpan`). A delay line that is made is long enough for its time
(`create_succeeds`).
-/

namespace Patchbay.Catalogue

namespace Making

variable {α β : Type} {P : α → Prop} {Q : β → Prop}

/-- That something is made, whatever has been reported before, and has a property. -/
def Gives (making : Making α) (P : α → Prop) : Prop :=
  ∀ reports, ∃ a rest, making reports = .ok a rest ∧ P a

theorem Gives.pure {a : α} (h : P a) : Gives (pure a) P := fun reports =>
  ⟨a, reports, rfl, h⟩

theorem Gives.bind {making : Making α} {f : α → Making β} (h : Gives making P)
    (hf : ∀ a, P a → Gives (f a) Q) : Gives (making >>= f) Q := by
  intro reports
  obtain ⟨a, rest, hmade, ha⟩ := h reports
  obtain ⟨b, rest', hmade', hb⟩ := hf a ha rest
  exact ⟨b, rest', run_bind_eq_ok.2 ⟨a, rest, hmade, hmade'⟩, hb⟩

theorem Gives.map {making : Making α} {f : α → β} (h : Gives making P)
    (hf : ∀ a, P a → Q (f a)) : Gives (f <$> making) Q := by
  intro reports
  obtain ⟨a, rest, hmade, ha⟩ := h reports
  exact ⟨f a, rest, run_map_eq_ok.2 ⟨a, hmade, rfl⟩, hf a ha⟩

/-- That something is not made, whatever has been reported before. -/
def Fails (making : Making α) (how : Fault) : Prop :=
  ∀ reports, ∃ rest, making reports = .error how rest

theorem Fails.map {making : Making α} {how : Fault} (h : Fails making how) (f : α → β) :
    Fails (f <$> making) how := by
  intro reports
  obtain ⟨rest, hfails⟩ := h reports
  refine ⟨rest, ?_⟩
  show EStateM.map f making reports = _
  rw [EStateM.map, hfails]

theorem Gives.bind_fails {making : Making α} {f : α → Making β} {how : Fault}
    (h : Gives making P) (hf : ∀ a, P a → Fails (f a) how) : Fails (making >>= f) how := by
  intro reports
  obtain ⟨a, rest, hmade, ha⟩ := h reports
  obtain ⟨rest', hfails⟩ := hf a ha rest
  refine ⟨rest', ?_⟩
  show EStateM.bind making f reports = _
  rw [EStateM.bind, hmade]
  exact hfails

/-- The number that stands at an index among the arguments, or the default if none does. -/
def number (args : Message) (index : Nat) (default : Float32) : Float32 :=
  (args.floatAt index).getD default

theorem gives_float (label : String) (args : Message) (index : Nat) (default : Float32) :
    Gives (float label args index default) (· = number args index default) := by
  intro reports
  unfold float number Message.floatAt
  cases args.atoms[index]? with
  | none => exact ⟨_, _, rfl, rfl⟩
  | some atom =>
    cases atom with
    | float value => exact ⟨_, _, rfl, rfl⟩
    | bang | symbol => exact ⟨_, _, rfl, rfl⟩

theorem gives_name (label : String) (args : Message) (index : Nat) :
    Gives (name label args index) fun _ => True := by
  intro reports
  unfold name
  cases args.atoms[index]? with
  | none => exact ⟨_, _, rfl, ⟨⟩⟩
  | some atom => cases atom <;> exact ⟨_, _, rfl, ⟨⟩⟩

theorem gives_operand (op : Operator) (label : String) (args : Message) :
    Gives (op.operand label args) fun _ => True := by
  unfold Operator.operand
  apply (gives_float label args 0 0).bind
  intro value _
  dsimp only
  split
  · intro reports
    exact ⟨_, _, rfl, ⟨⟩⟩
  · exact .pure ⟨⟩

end Making

open Making

/-- Whatever is listed is made from any arguments, unless it writes a delay line. -/
theorem gives_of_entry (settings : Settings) (args : Message) :
    ∀ entry ∈ entries, entry.label ≠ "delwrite~" →
      Gives (entry.make args settings) fun _ => True := by
  have hname : ∀ {α : Type} (label : String) (f : Symbol → Making α),
      (∀ name, Gives (f name) fun _ => True) →
      Gives (name label args 0 >>= f) fun _ => True :=
    fun label f hf => (gives_name label args 0).bind fun name _ => hf name
  have hfloat : ∀ {α : Type} (label : String) (index : Nat) (default : Float32)
      (f : Float32 → Making α), (∀ value, Gives (f value) fun _ => True) →
      Gives (float label args index default >>= f) fun _ => True :=
    fun label index default f hf =>
      (gives_float label args index default).bind fun value _ => hf value
  have hoperand : ∀ {α : Type} (op : Operator) (label : String) (f : Float32 → Making α),
      (∀ value, Gives (f value) fun _ => True) →
      Gives (op.operand label args >>= f) fun _ => True :=
    fun op label f hf => (gives_operand op label args).bind fun value _ => hf value
  -- what the entries make out of their arguments has six shapes
  simp only [entries, List.forall_mem_cons]
  repeat' apply And.intro
  all_goals first
    | exact fun hlabel => absurd rfl hlabel
    | exact fun _ => .pure ⟨⟩
    | exact fun _ => .map (hname _ _ fun _ => .pure ⟨⟩) fun _ _ => ⟨⟩
    | exact fun _ => .map (hfloat _ _ _ _ fun _ => .pure ⟨⟩) fun _ _ => ⟨⟩
    | exact fun _ => .map (hoperand _ _ _ fun _ => .pure ⟨⟩) fun _ _ => ⟨⟩
    | exact fun _ => .map (hname _ _ fun _ => hfloat _ _ _ _ fun _ => .pure ⟨⟩) fun _ _ => ⟨⟩
    | exact fun _ hmem => absurd hmem List.not_mem_nil

/-! ## Delay lines -/

/-- The length of a delay line for a time, were there no limit to it. -/
def lineSpan (settings : Settings) (ms : Float32) : Nat :=
  (DelayReader.delayOf settings ms + max settings.blockSize 1 - 1) / max settings.blockSize 1 *
    max settings.blockSize 1 + max settings.blockSize 1

theorem delayLineLength_eq (settings : Settings) (ms : Float32) : delayLineLength settings ms =
    if lineSpan settings ms < wordSize then .ok (lineSpan settings ms) else .error .overflow := by
  show checkedMul _ _ >>= (fun whole => checkedAdd whole _) = _
  unfold checkedMul checked
  split
  · rfl
  · next hwhole =>
    -- the whole blocks alone are too many, so with one more they are
    have hspan : ¬ lineSpan settings ms < wordSize := by
      intro hfits
      exact hwhole (Nat.lt_of_le_of_lt (Nat.le_add_right _ _) hfits)
    rw [if_neg hspan]
    rfl

theorem lineSpan_spec {settings : Settings} (hblock : 1 ≤ settings.blockSize) (ms : Float32) :
    settings.blockSize ∣ lineSpan settings ms ∧
      DelayReader.delayOf settings ms + settings.blockSize ≤ lineSpan settings ms := by
  unfold lineSpan
  rw [Nat.max_eq_left hblock]
  generalize DelayReader.delayOf settings ms = samples
  generalize settings.blockSize = block at hblock
  refine ⟨(Nat.dvd_mul_left _ _).add (Nat.dvd_refl _), ?_⟩
  have hsplit := Nat.div_add_mod' (samples + block - 1) block
  have hrest := Nat.mod_lt (samples + block - 1) hblock
  omega

/-- That a reader waits as long as it was asked to, at every line of at least some length. -/
def DelayReader.IsUnclamped (r : DelayReader) (blockSize length : Nat) : Prop :=
  ∀ (ins : Inputs) (outs : Outputs) (line : Store) (first last : Nat),
    ins.blockSize = blockSize → outs.store = some line → length ≤ line.length →
    line.head < line.length → line.length * sampleBytes < addressable → last ≤ blockSize →
    r.process ins outs first last = outs.setOutlet 0 first last
      ((Array.range' first (last - first)).map fun i =>
        (line.samples[(line.head + 2 * line.length - (blockSize + r.delay) + i) % line.length]?).getD 0)

theorem DelayReader.isUnclamped (r : DelayReader) {blockSize length : Nat}
    (h : r.delay + blockSize ≤ length) : r.IsUnclamped blockSize length := by
  intro ins outs line first last hblock hstore hlength hhead hroom hlast
  subst hblock
  rw [r.process_eq hstore hhead (by omega) hroom hlast, Nat.min_eq_left (by omega)]

/-! ## The catalogue -/

/-- Only one label names the entry that writes delay lines. -/
theorem label_eq_of_find? {label : String} {entry : Entry} (h : find? label = some entry)
    (hentry : entry.label = "delwrite~") : label = "delwrite~" := by
  have haliases : ∀ entry ∈ entries, entry.label = "delwrite~" → entry.aliases = [] := by decide
  have hnamed : entry.isNamed label = true := List.find?_some (p := fun e : Entry => e.isNamed label) h
  rw [Entry.isNamed, haliases entry (List.mem_of_find?_eq_some h) hentry, hentry] at hnamed
  rw [List.contains_nil, Bool.or_false] at hnamed
  exact (eq_of_beq hnamed).symm

/-- What has any other label is made from any arguments, or is not listed. -/
theorem create_eq_ok {label : String} (hlabel : label ≠ "delwrite~") (args : Message)
    (settings : Settings) : Gives (create label args settings) fun made =>
      (made.isSome = true ↔ (numberLabel? label).isSome = true ∨ (find? label).isSome = true) := by
  unfold create
  cases hnumber : numberLabel? label with
  | some value => exact .pure (by simp)
  | none =>
    cases hentry : find? label with
    | none => exact .pure (by simp)
    | some entry =>
      have hmakes := gives_of_entry settings args entry (List.mem_of_find?_eq_some hentry)
        fun h => hlabel (label_eq_of_find? hentry h)
      exact hmakes.map fun _ _ => by simp

section Lines

variable (args : Message) (settings : Settings)

theorem create_delwrite_eq : create "delwrite~" args settings =
    some <$> CatalogueUnit.delayWriter <$> DelayWriter.make args settings := by
  have hnumber : numberLabel? "delwrite~" = none := by decide
  unfold create
  rw [hnumber]
  rfl

theorem create_delread_eq : create "delread~" args settings =
    some <$> CatalogueUnit.delayReader <$> DelayReader.make args settings := by
  have hnumber : numberLabel? "delread~" = none := by decide
  unfold create
  rw [hnumber]
  rfl

theorem gives_delayReader : Gives (DelayReader.make args settings)
    (·.delay = DelayReader.delayOf settings (number args 1 0)) := by
  apply (gives_name "delread~" args 0).bind
  intro name _
  apply (gives_float "delread~" args 1 0).bind
  intro ms hms
  exact .pure (by rw [hms])

variable {args settings}

theorem gives_delayWriter (h : lineSpan settings (number args 1 1000) < wordSize) :
    Gives (DelayWriter.make args settings)
      (·.length = lineSpan settings (number args 1 1000)) := by
  apply (gives_name "delwrite~" args 0).bind
  intro name _
  apply (gives_float "delwrite~" args 1 1000).bind
  intro ms hms
  rw [hms, delayLineLength_eq, if_pos h]
  exact .pure rfl

theorem fails_delayWriter (h : wordSize ≤ lineSpan settings (number args 1 1000)) :
    Fails (DelayWriter.make args settings) .overflow := by
  apply (gives_name "delwrite~" args 0).bind_fails
  intro name _
  apply (gives_float "delwrite~" args 1 1000).bind_fails
  intro ms hms
  rw [hms, delayLineLength_eq, if_neg (Nat.not_lt.2 h)]
  exact fun reports => ⟨reports, rfl⟩

end Lines

/-- Whatever label and arguments are given, a unit is made if the label is a number or is listed, and
nothing otherwise. The exception is the writer of a delay line so long that its samples cannot be
counted. A delay line that is made is as long as a number of blocks and holds one block more than its time,
so that no reader that asks for the same time is held to less. -/
theorem create_succeeds {settings : Settings} (hblock : 1 ≤ settings.blockSize) (label : String)
    (args : Message) (reports : Array Report) :
    (label ≠ "delwrite~" → ∃ made rest, create label args settings reports = .ok made rest ∧
      (made.isSome = true ↔ (numberLabel? label).isSome = true ∨ (find? label).isSome = true)) ∧
    (lineSpan settings (number args 1 1000) < wordSize →
      ∃ w rest, create "delwrite~" args settings reports = .ok (some (.delayWriter w)) rest ∧
        settings.blockSize ∣ w.length ∧
        settings.msToSamples (widen (maxSingle (number args 1 1000) 0)) + settings.blockSize ≤
          w.length ∧
        ∀ asked, number asked 1 0 = number args 1 1000 → ∀ earlier, ∃ r rest,
          create "delread~" asked settings earlier = .ok (some (.delayReader r)) rest ∧
          r.IsUnclamped settings.blockSize w.length) ∧
    (wordSize ≤ lineSpan settings (number args 1 1000) →
      ∃ rest, create "delwrite~" args settings reports = .error .overflow rest) := by
  refine ⟨fun hlabel => create_eq_ok hlabel args settings reports, fun hfits => ?_, fun hlong => ?_⟩
  · obtain ⟨w, rest, hmade, hlength⟩ := gives_delayWriter hfits reports
    obtain ⟨hdvd, hlong⟩ := lineSpan_spec hblock (number args 1 1000)
    rw [← hlength] at hdvd hlong
    refine ⟨w, rest, ?_, hdvd, hlong, ?_⟩
    · rw [create_delwrite_eq]
      exact run_map_eq_ok.2 ⟨_, run_map_eq_ok.2 ⟨w, hmade, rfl⟩, rfl⟩
    · intro asked hasked earlier
      obtain ⟨r, rest', hread, hdelay⟩ := gives_delayReader asked settings earlier
      refine ⟨r, rest', ?_, r.isUnclamped ?_⟩
      · rw [create_delread_eq]
        exact run_map_eq_ok.2 ⟨_, run_map_eq_ok.2 ⟨r, hread, rfl⟩, rfl⟩
      · rw [hdelay, hasked]
        exact hlong
  · rw [create_delwrite_eq]
    exact ((fails_delayWriter hlong).map _).map _ reports

/-- A delay line of a second and a bit, at the usual settings, is made with a block to spare. -/
theorem create_succeeds_second :
    let args : Message := .ofAtoms 0 [.symbol .empty, .float 1001]
    ∃ w rest, create "delwrite~" args {} #[] = .ok (some (.delayWriter w)) rest ∧
      64 ∣ w.length ∧ 48048 + 64 ≤ w.length ∧
      ∃ r rest, create "delread~" args {} #[] = .ok (some (.delayReader r)) rest ∧
        r.IsUnclamped 64 w.length := by
  intro args
  have hnumber : ∀ default, number args 1 default = 1001 := fun _ => rfl
  have hfits : lineSpan {} 1001 < wordSize := by decide +kernel
  have hsamples : Settings.msToSamples {} (widen (maxSingle 1001 0)) = 48048 := by decide +kernel
  have hcreate := (create_succeeds (show 1 ≤ Settings.blockSize {} by decide) "delwrite~" args #[]).2.1
  rw [hnumber, hsamples] at hcreate
  obtain ⟨w, rest, hmade, hdvd, hlong, hreaders⟩ := hcreate hfits
  obtain ⟨r, rest', hread, hunclamped⟩ := hreaders args (hnumber 0) #[]
  exact ⟨w, rest, hmade, hdvd, hlong, r, rest', hread, hunclamped⟩

/-- The length of a delay line of 1e30 milliseconds cannot be counted, and the unit is not made. -/
theorem create_fails_endless :
    ∃ rest, create "delwrite~" (.ofAtoms 0 [.symbol .empty, .float 1e30]) {} #[] =
      .error .overflow rest := by
  have hlong : wordSize ≤
      lineSpan {} (number (.ofAtoms 0 [.symbol .empty, .float 1e30]) 1 1000) := by
    decide +kernel
  rw [create_delwrite_eq]
  exact ((fails_delayWriter hlong).map _).map _ #[]

end Patchbay.Catalogue
