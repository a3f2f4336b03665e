import Patchbay.CommandLine.Disk
import Patchbay.Proofs.Config.WellFormed
import Patchbay.Proofs.Render

/-!
# What is rendered into a file

An engine that is built from a patch is ready for its first block (`Building.ready_of_build`), so a patch
is rendered whenever all that is due before each block can be handed back. What is written is the
beginning of the blocks, frame after frame (`render_records`). More channels than a wave file can have
are refused.
-/

namespace Patchbay

open Engine

namespace Building

variable {settings : Settings} {c c' : Construction}

/-- What each step of a list keeps, the list keeps. -/
theorem forM_keeps {α : Type} {f : α → Building PUnit} {P : Construction → Prop}
    (step : ∀ x c, P c → Outcome (fun _ => True) (fun o => P o.2) ((f x).run.run c)) (xs : List α)
    (h : P c) : Outcome (fun _ => True) (fun o => P o.2) ((xs.forM f).run.run c) := by
  induction xs generalizing c with
  | nil => exact h
  | cons x xs ih =>
    show Outcome _ _ ((f x >>= fun _ => xs.forM f).run.run c)
    rw [run_bind]
    refine (step x c h).bind fun o ho => ?_
    obtain ⟨_ | _, c'⟩ := o
    · exact ho
    · exact ih ho

/-- A unit of a patch is made by the catalogue. -/
theorem made_of_makes {u : UnitEntry} {body : Body CatalogueUnit} (h : u.Makes settings body) :
    ∀ unit, body = .device unit → unit.Made settings := by
  rintro unit rfl
  cases h with
  | device _ hmade => exact ⟨_, _, _, _, hmade⟩

theorem ready_of_addsUnit {u : UnitEntry} {r : Except ConfigError PUnit}
    (h : c.engine.Ready settings) (ha : AddsUnit u c r c') : c'.engine.Ready settings := by
  cases ha with
  | duplicate | orphan => exact h
  | unlisted journal => exact h.of_graph rfl rfl
  | misplaced journal _ _ _ hadd =>
    have hsame : Ready settings { c.engine with journal } := h.of_graph rfl rfl
    rw [(Edit.proper_add ..).refused hadd]
    exact hsame.declined
  | added journal _ _ hmakes hadd =>
    have hsame : Ready settings { c.engine with journal } := h.of_graph rfl rfl
    have hmade := made_of_makes (h.fit.same ▸ hmakes)
    exact hsame.edit (Edit.proper_add ..) hadd
      (Edit.fitted_add h.fit.graph h.kept.sound hmade hadd)

theorem ready_addConnection (x : ConnectionEntry) (h : c.engine.Ready settings) :
    Outcome (fun _ => True) (fun o => o.2.engine.Ready settings) ((addConnection x).run.run c) := by
  rw [run_addConnection]
  cases c.unit? x.source with
  | none => exact h
  | some source =>
    cases c.unit? x.dest with
    | none => exact h
    | some dest =>
      rcases Edit.connect_cases ⟨source, x.outlet, dest, x.inlet⟩ c.engine.graph with
        ⟨kind, g, hg⟩ | ⟨why, hg⟩
      · dsimp only
        rw [hg]
        exact h.edit (Edit.proper_connect _) hg (Edit.fitted_connect h.fit.graph hg)
      · dsimp only
        rw [hg]
        exact h.declined

theorem ready_addEvent (x : EventEntry) (h : c.engine.Ready settings) :
    Outcome (fun _ => True) (fun o => o.2.engine.Ready settings) ((addEvent x).run.run c) := by
  rw [run_addEvent]
  cases x.flaw? c.engine.graph.names with
  | some why => exact h
  | none => exact h.of_graph rfl rfl

/-- The engine that is built from a patch is ready for its first block. -/
theorem ready_of_build {p : Patch} {result : Except ConfigError PUnit}
    (h : p.build settings = .ok (result, c)) : c.engine.Ready settings := by
  obtain ⟨engine, hnew, hall⟩ := bind_eq_ok.1 h
  suffices Outcome (fun _ => True) (fun o => o.2.engine.Ready settings)
      ((all p).run.run { engine }) from this.of_ok hall
  have hstart : Construction.engine { engine } |>.Ready settings := ready_of_new hnew
  unfold all
  rw [run_bind]
  refine (forM_keeps (fun u c hc => (addsUnit u c).mono fun _ => ready_of_addsUnit hc) _ hstart).bind ?_
  rintro ⟨_ | _, placed⟩ hplaced
  · exact hplaced
  · dsimp only
    rw [run_bind]
    refine (forM_keeps (fun x _ => ready_addConnection x) _ hplaced).bind ?_
    rintro ⟨_ | _, linked⟩ hlinked
    · exact hlinked
    · exact forM_keeps (fun x _ => ready_addEvent x) _ hlinked

end Building

namespace CommandLine

section Runs

variable {α β : Type} {d : Disk} {path text : String}

theorem run_bind (x : Run (StateM Disk) α) (f : α → Run (StateM Disk) β) (d : Disk) :
    (x >>= f).run.run d =
      match x.run.run d with
      | (.ok a, d') => (f a).run.run d'
      | (.error o, d') => (.error o, d') := by
  show (ExceptT.bindCont f (x d).1 (x d).2 : Id _) = _
  unfold ExceptT.bindCont
  show _ = match x d with | (.ok a, d') => _ | (.error o, d') => _
  obtain ⟨_ | _, d'⟩ := x d <;> rfl

theorem run_load {read : String → Except ConfigError α} {a : α} (what : String)
    (hread : d.readText? path = some text) (ha : read text = .ok a) :
    (load Disk.access what path read).run.run d = (.ok a, d) := by
  have hlift : (liftM (Disk.access.read path) : Run (StateM Disk) (Option String)).run.run d =
      (.ok (some text), d) := hread ▸ rfl
  unfold load
  rw [run_bind, hlift]
  dsimp only
  rw [ha]
  rfl

/-- A patch that can be read and built is built. -/
theorem run_build {patch : Patch} {settings : Settings} {built : Construction}
    (hread : d.readText? path = some text) (hpatch : Patch.read text = .ok patch)
    (hbuild : patch.build settings = .ok (.ok ⟨⟩, built)) :
    (build Disk.access path settings).run.run d = (.ok built, d) := by
  unfold build
  rw [run_bind, run_load "patch" hread hpatch]
  dsimp only
  rw [hbuild]
  rfl

end Runs

section Render

variable {d created : Disk} {path output text : String} {seconds : Float} {config : EngineConfig}
  {patch : Patch} {built : Construction}

/-- What the user is told about a recording. -/
def rendered (frames channels : Nat) (seconds : Float) (output : String) : String :=
  let duration := writeFixed 2 seconds
  lines [s!"Rendered {frames} frames ({duration}s, {channels} ch) to {output}"]

section Built

variable (hread : d.readText? path = some text) (hpatch : Patch.read text = .ok patch)
  (hbuild : patch.build config.settings = .ok (.ok ⟨⟩, built))
  (hseconds : ¬ (seconds.isNaN = true ∨ seconds < 0))
include hread hpatch hbuild hseconds

/-- More channels than a wave file can have are refused. -/
theorem run_render_of_limit (hlimit : channelLimit ≤ config.settings.outputChannels) :
    (render Disk.access path output seconds config).run.run d =
      (.error (.failure "too many output channels for WAV"), d) := by
  have hchannels : config.settings.outputChannels ≠ 0 := by
    unfold channelLimit at hlimit
    omega
  unfold render
  simp only [hchannels, hseconds, if_false]
  rw [run_bind, run_build hread hpatch hbuild]
  dsimp only
  rw [if_pos hlimit]
  rfl

/-- When there are blocks for all frames, these are what is written. -/
theorem run_render {samples : Samples} {bytes : ByteArray}
    (hchannels : 0 < config.settings.outputChannels)
    (hlimit : config.settings.outputChannels < channelLimit)
    (hcreate : d.write? output .empty = some created) {header : List UInt8}
    (hheader : Wave.header config.settings.outputChannels config.sampleRate 0 = .ok header)
    (hframes : Render.frames built.engine (frameCount seconds config.settings) #[] = .ok samples)
    (hbytes : Wave.encode config.settings.outputChannels config.sampleRate samples = .ok bytes) :
    (render Disk.access path output seconds config).run.run d =
      (.ok (rendered (frameCount seconds config.settings) config.settings.outputChannels seconds
        output), (created.write? output bytes).getD created) := by
  have hcreated : (liftM (Disk.access.create output) : Run (StateM Disk) Bool).run.run d =
      (.ok true, created) := by
    have hwritten : (Disk.access.create output).run d = (true, created) := by
      simp only [Disk.access, StateT.run_bind, StateT.run_get, pure_bind, hcreate]
      rfl
    exact congrArg (fun o => (Except.ok o.1, o.2)) hwritten
  unfold render
  simp only [Nat.pos_iff_ne_zero.1 hchannels, hseconds, if_false]
  rw [run_bind, run_build hread hpatch hbuild]
  dsimp only
  rw [if_neg (Nat.not_le_of_lt hlimit), run_bind, hcreated]
  dsimp only
  rw [hheader, hframes]
  show ((ofResult (Wave.encode config.settings.outputChannels config.sampleRate samples) >>=
    fun _ => _ : Run (StateM Disk) String).run.run created) = _
  rw [hbytes]
  rfl

end Built

/-- A header is written as long as the bytes of a second can be counted. -/
theorem exists_header {channels sampleRate : Nat}
    (h : sampleRate * (channels * sampleBytes) < halfWordSize) (size : Nat) :
    Wave.header channels sampleRate size = .ok (Wave.headerBytes channels sampleRate size) :=
  if_neg (Nat.not_le_of_lt h)

end Render

open Render (Drains blockCount)

/-- A text in the file `p`, in the directory where the program runs. -/
def textFile (text : String) : Disk := ⟨[(Disk.home ++ ["p"], text.toUTF8)]⟩

/-- A path that is but a name leads to the directory where the program runs. -/
theorem follow?_name {d : Disk} {name : String} (hsplit : name.splitOn "/" = [name])
    (hshort : (name.isEmpty || decide (Disk.pathLimit ≤ name.utf8ByteSize)) = false)
    (hrelative : name.startsWith "/" = false) : d.follow? name = d.step? Disk.home name := by
  unfold Disk.follow?
  rw [hshort, hsplit, hrelative]
  simp

theorem readText?_textFile (text : String) : (textFile text).readText? "p" = some text := by
  have hplace : (textFile text).follow? "p" = some (Disk.home ++ ["p"]) := by
    rw [follow?_name (by simp +decide [String.splitOn, String.splitOnAux]) (by decide +kernel)
      (by decide +kernel)]
    rfl
  unfold Disk.readText? Disk.read? Disk.locate?
  rw [hplace]
  show String.fromUTF8? text.toUTF8 = some text
  unfold String.fromUTF8?
  exact dif_pos text.isValidUTF8

theorem follow?_textFile (text : String) :
    (textFile text).follow? "o" = some (Disk.home ++ ["o"]) := by
  rw [follow?_name (by simp +decide [String.splitOn, String.splitOnAux]) (by decide +kernel)
    (by decide +kernel)]
  rfl

/-- A message that is due in the second block. -/
def belled : Patch where
  units := [⟨"bell", "r", "ring", none⟩, ⟨"out", "dac~", "", none⟩]
  events := [⟨2, "ring", "1"⟩]

def belledText : String :=
  "[[units]]\nname = \"bell\"\nlabel = \"r\"\nargs = \"ring\"\n\n" ++
  "[[units]]\nname = \"out\"\nlabel = \"dac~\"\n\n" ++
  "[[events]]\ntime = 2.0\nreceiver = \"ring\"\nmessage = \"1\"\n"

def slow : EngineConfig where
  sampleRate := 1000
  blockSize := 2
  inputChannels := 0

theorem exists_belled : ∃ built, belled.build slow.settings = .ok (.ok ⟨⟩, built) ∧
    built.engine.graph.HasRoom ∧ Drains built.engine 2 := by
  have hrun : (match belled.build slow.settings with
      | .ok (.ok _, built) =>
        (Render.blocks built.engine 2).isOk && decide built.engine.graph.HasRoom
      | _ => false) = true := by decide +kernel
  cases hbuild : belled.build slow.settings with
  | error how =>
    rw [hbuild] at hrun
    cases hrun
  | ok o =>
    rw [hbuild] at hrun
    obtain ⟨_ | _, built⟩ := o
    · cases hrun
    · obtain ⟨hblocks, hroom⟩ := Bool.and_eq_true_iff.1 hrun
      cases hcomputed : Render.blocks built.engine 2 with
      | error how =>
        rw [hcomputed] at hblocks
        cases hblocks
      | ok computed =>
        exact ⟨built, rfl, of_decide_eq_true hroom, Render.drains_of_blocks hcomputed⟩

end CommandLine
end Patchbay
