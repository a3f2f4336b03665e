import Patchbay.Proofs.Catalogue.Links
import Patchbay.Proofs.Catalogue.Pieces
import Patchbay.Proofs.Number.Order

/-!
# Splitting a block is inaudible

A message that arrives within a block cuts the work of the units in two. Nothing of that is to be
heard: a unit that goes on from where its first piece has left it ends in the same state, and leaves
the same samples in its outlets, on its bus, in its store and for the host, as if it had computed the
range in one piece (`CatalogueUnit.process_in_two`).
-/

namespace Patchbay

open Catalogue

namespace Catalogue

section Stateless

variable (ins : Inputs)

theorem byParts_inlet (k : Nat) : ByParts fun first last => ins.inlet k >>= fun xs => slice xs first last :=
  .of_source _ .slice

/-- What works on its input may be interrupted if it may take its input in two parts. -/
theorem seamless_of_input {τ : Type} {work : Samples → τ → Nat → Nat → Except Fault τ} (k : Nat)
    (h : ∀ ⦃front back t t' first middle last⦄, first + front.size = middle →
      middle + back.size = last → work (front ++ back) t first last = .ok t' →
      ∃ half, work front t first middle = .ok half ∧ work back half middle last = .ok t') :
    Seamless fun t first last =>
      ins.inlet k >>= fun xs => slice xs first last >>= fun input => work input t first last := by
  intro t t' first middle last hle hle' hwhole
  obtain ⟨xs, hxs, hwhole⟩ := bind_eq_ok.1 hwhole
  obtain ⟨input, hinput, hwhole⟩ := bind_eq_ok.1 hwhole
  obtain ⟨front, back, hfront, hback, hsize, rfl⟩ := ByParts.slice xs hle hle' hinput
  have hsize' := size_of_slice hback
  have hmiddle : first + front.size = middle := by omega
  have hlast : middle + back.size = last := by omega
  obtain ⟨half, hhalf, hrest⟩ := h hmiddle hlast hwhole
  exact ⟨half, bind_eq_ok.2 ⟨xs, hxs, bind_eq_ok.2 ⟨front, hfront, hhalf⟩⟩,
    bind_eq_ok.2 ⟨xs, hxs, bind_eq_ok.2 ⟨back, hback, hrest⟩⟩⟩

/-- What treats one channel after the other may be interrupted if it does not matter which of two
channels comes first. -/
theorem seamless_of_channels {source : Nat → Except Fault Samples}
    {write : Outputs → (channel first last : Nat) → Samples → Except Fault Outputs}
    (hwrite : ∀ channel, Seamless fun outs first last =>
      source channel >>= fun xs => slice xs first last >>= write outs channel first last)
    (hcomm : ∀ ⦃c d⦄, c ≠ d → ∀ ⦃outs outs' outs'' ys zs a b a' b'⦄, ys.size = b - a →
      zs.size = b' - a' → write outs c a b ys = .ok outs' → write outs' d a' b' zs = .ok outs'' →
      ∃ half, write outs d a' b' zs = .ok half ∧ write half c a b ys = .ok outs'')
    (channels : Nat) : Seamless fun outs first last => (List.range channels).foldlM
      (fun outs channel =>
        source channel >>= fun xs => slice xs first last >>= write outs channel first last) outs := by
  refine Seamless.loop hwrite ?_ List.nodup_range
  intro c d hcd outs outs' outs'' first middle last _ _ hback hfront
  obtain ⟨xs, hxs, hback⟩ := bind_eq_ok.1 hback
  obtain ⟨ys, hys, hback⟩ := bind_eq_ok.1 hback
  obtain ⟨xs', hxs', hfront⟩ := bind_eq_ok.1 hfront
  obtain ⟨ys', hys', hfront⟩ := bind_eq_ok.1 hfront
  obtain ⟨half, hfront', hback'⟩ := hcomm hcd (size_of_slice hys) (size_of_slice hys') hback hfront
  exact ⟨half, bind_eq_ok.2 ⟨xs', hxs', bind_eq_ok.2 ⟨ys', hys', hfront'⟩⟩,
    bind_eq_ok.2 ⟨xs, hxs, bind_eq_ok.2 ⟨ys, hys, hback'⟩⟩⟩

theorem HostInput.seamless (u : HostInput) : Seamless fun outs => u.process ins outs := by
  refine seamless_of_channels (fun channel => ?_) ?_ u.channels
  · simpa only [bind_assoc] using ByParts.seamless
      (fun _ => .of_source (ins.hostChannel channel) .slice) (fun _ _ => rfl) channel
  · intro c d hcd _ _ _ _ _ _ _ _ _ _ _
    exact Outputs.setOutlet_comm hcd

theorem HostOutput.seamless (u : HostOutput) : Seamless fun outs => u.process ins outs := by
  refine seamless_of_channels (fun channel => ?_) ?_ u.channels
  · refine seamless_of_input ins channel fun front back outs outs' first middle last hf hb h => ?_
    exact Outputs.addToHost_append (by omega) (by omega) (by omega) (by omega) h
  · intro c d hcd _ _ _ _ _ _ _ _ _ hy hz
    exact Outputs.addToHost_comm hcd hy hz

theorem StreamOperator.seamless (u : StreamOperator) : Seamless fun outs => u.process ins outs := by
  unfold StreamOperator.process
  cases u.mode with
  | scalar =>
    simpa only [bind_assoc, pure_bind] using
      ByParts.seamless (fun _ => (byParts_inlet ins 0).map (u.op.apply · u.right)) (fun _ _ => rfl) 0
  | signal =>
    simpa only [bind_assoc, pure_bind] using ByParts.seamless
      (fun _ => (byParts_inlet ins 0).zipWith (byParts_inlet ins 1) u.op.apply) (fun _ _ => rfl) 0

theorem TableReader.seamless : Seamless fun outs => TableReader.process ins outs := by
  unfold TableReader.process
  simpa only [bind_assoc, pure_bind] using ByParts.seamless
    (fun outs => (byParts_inlet ins 0).map (read ((outs.store.map Store.samples).getD #[])))
      (fun _ _ => rfl) 0

/-- A range of what a reader of a link sends on. -/
def LinkReader.piece (outs : Outputs) (first last : Nat) : Except Fault Samples :=
  match outs.bus with
  | some bus => slice bus first last
  | none => .ok (silence (last - first))

theorem LinkReader.seamless : Seamless LinkReader.process := by
  have hpiece : ∀ outs, ByParts (piece outs) := by
    intro outs
    unfold piece
    cases outs.bus with
    | some bus => exact .slice bus
    | none => exact .replicate 0
  have hprocess : LinkReader.process =
      fun outs first last => piece outs first last >>= outs.setOutlet 0 first last := by
    funext outs first last
    unfold LinkReader.process piece
    cases outs.bus <;> rfl
  rw [hprocess]
  exact ByParts.seamless hpiece (fun _ _ => rfl) 0

/-- A range of what a line holds, counted from a place; no index may be too large. -/
def DelayReader.tap (line : Store) (base first last : Nat) : Except Fault Samples := do
  if first < last then
    let _ ← checkedAdd base (last - 1)
  return (Array.range' first (last - first)).map
    fun i => (line.samples[(base + i) % line.length]?).getD 0

/-- The last index of a part is not beyond the last of the whole. -/
theorem DelayReader.byParts_tap (line : Store) (base : Nat) : ByParts (tap line base) := by
  have hok : ∀ {first last ys}, tap line base first last = .ok ys ↔
      (first < last → base + (last - 1) < wordSize) ∧
        (Array.range' first (last - first)).map
          (fun i => (line.samples[(base + i) % line.length]?).getD 0) = ys := by
    intro first last ys
    unfold tap
    by_cases hlt : first < last
    · rw [if_pos hlt]
      constructor
      · intro h
        obtain ⟨_, hadd, ⟨⟩⟩ := bind_eq_ok.1 h
        exact ⟨fun _ => (checked_eq_ok.1 hadd).1, rfl⟩
      · rintro ⟨hword, rfl⟩
        exact bind_eq_ok.2 ⟨_, checked_eq_ok.2 ⟨hword hlt, rfl⟩, rfl⟩
    · rw [if_neg hlt]
      simp [hlt, pure, Except.pure]
  intro ys first middle last hle hle' h
  obtain ⟨hword, hys⟩ := hok.1 h
  obtain ⟨_, _, ⟨⟩, ⟨⟩, hparts⟩ := ByParts.of_offset _ hle hle' (congrArg Except.ok hys)
  have hfront : first < middle → base + (middle - 1) < wordSize := by
    intro hlt
    have := hword (by omega)
    omega
  exact ⟨_, _, hok.2 ⟨hfront, rfl⟩, hok.2 ⟨fun _ => hword (by omega), rfl⟩, hparts⟩

/-- A range of what a reader of a delay line sends on. -/
def DelayReader.piece (u : DelayReader) (outs : Outputs) (first last : Nat) :
    Except Fault Samples :=
  let line := outs.store.getD {}
  if line.length < ins.blockSize ∨ line.length = 0 then .ok (silence (last - first))
  else do
    let far ← checkedAdd line.head (← checkedMul 2 line.length)
    let base ← checkedSub far (ins.blockSize + min u.delay (line.length - ins.blockSize))
    tap line base first last

theorem DelayReader.seamless (u : DelayReader) : Seamless fun outs => u.process ins outs := by
  have hpiece : ∀ outs, ByParts (piece ins u outs) := by
    intro outs
    unfold piece
    dsimp only
    split
    · exact .replicate 0
    · exact .of_source _ fun _ => .of_source _ fun _ => .of_source _ (byParts_tap _)
  have hprocess : (fun outs => u.process ins outs) =
      fun outs first last => piece ins u outs first last >>= outs.setOutlet 0 first last := by
    funext outs first last
    unfold DelayReader.process piece tap
    dsimp only
    split
    · rfl
    · by_cases hlt : first < last <;> simp [hlt]
  rw [hprocess]
  exact ByParts.seamless hpiece (fun _ _ => rfl) 0

/-- A writer treats each part by itself. -/
theorem LinkWriter.write_append (u : LinkWriter) {old old' xs xs' : Samples}
    (h : old.size = xs.size) :
    u.write (old ++ old') (xs ++ xs') = u.write old xs ++ u.write old' xs' := by
  unfold write
  cases u.family with
  | throw => exact Array.zipWith_append h
  | send => rfl

theorem LinkWriter.seamless (u : LinkWriter) : Seamless fun outs => u.process ins outs := by
  refine seamless_of_input ins 0 fun front back outs outs' first middle last hfront hback h => ?_
  cases hbus : outs.bus with
  | none =>
    rw [hbus] at h
    cases h
    refine ⟨outs, rfl, ?_⟩
    rw [hbus]
    rfl
  | some bus =>
    rw [hbus] at h
    obtain ⟨old, hold, ⟨⟩⟩ := bind_eq_ok.1 h
    obtain ⟨old₁, old₂, hold₁, hold₂, hsize, rfl⟩ := ByParts.slice bus (Nat.le.intro hfront) (Nat.le.intro hback) hold
    have hwritten : first + (u.write old₁ front).size = middle := by
      rw [u.size_write (by omega)]
      omega
    refine ⟨{ outs with bus := some (overwrite bus first (u.write old₁ front)) },
      bind_eq_ok.2 ⟨old₁, hold₁, rfl⟩, bind_eq_ok.2 ⟨old₂, ?_, ?_⟩⟩
    · rwa [slice_overwrite hwritten.le]
    · rw [u.write_append (by omega), overwrite_append, hwritten]
      rfl

theorem DelayWriter.length_write (line : Store) (x : Float32) :
    (write line x).length = line.length :=
  Array.size_setIfInBounds

theorem DelayWriter.length_foldl_write (xs : Samples) (line : Store) :
    (xs.foldl write line).length = line.length :=
  Array.foldl_induction (fun _ (done : Store) => done.length = line.length) rfl
    fun _ done h => (length_write done _).trans h

/-- The head of a line stays in it. -/
theorem DelayWriter.head_foldl_write (xs : Samples) (line : Store) (h : line.head < line.length) :
    (xs.foldl write line).head < line.length := by
  refine (Array.foldl_induction
    (fun _ (done : Store) => done.length = line.length ∧ done.head < line.length) ⟨rfl, h⟩ ?_).2
  rintro i done ⟨hlength, -⟩
  refine ⟨(length_write done _).trans hlength, ?_⟩
  show (done.head + 1) % done.length < line.length
  rw [hlength]
  exact Nat.mod_lt _ (Nat.zero_lt_of_lt h)

theorem DelayWriter.seamless : Seamless fun outs => DelayWriter.process ins outs := by
  refine seamless_of_input ins 0 fun front back outs outs' first middle last hfront hback h => ?_
  cases hstore : outs.store with
  | none =>
    rw [hstore] at h
    cases h
    refine ⟨outs, rfl, ?_⟩
    rw [hstore]
    rfl
  | some line =>
    rw [hstore] at h
    dsimp only at h ⊢
    by_cases hlength : line.length = 0
    · rw [if_pos hlength] at h ⊢
      cases h
      refine ⟨outs, rfl, ?_⟩
      rw [hstore]
      exact if_pos hlength
    · have hguard : ¬ (line.length ≤ line.head ∧ 0 < (front ++ back).size) := by
        intro hguard
        rw [if_neg hlength, if_pos hguard] at h
        cases h
      rw [if_neg hlength, if_neg hguard] at h
      cases h
      rw [Array.size_append] at hguard
      rw [if_neg hlength, if_neg (by omega)]
      refine ⟨_, rfl, ?_⟩
      have hsame := length_foldl_write front line
      have hhead := head_foldl_write front line
      dsimp only
      rw [if_neg (by omega), if_neg (by omega), Array.foldl_append]
      rfl

end Stateless

/-! ### Recording -/

namespace TableWriter

variable {u : TableWriter} {store : Store} {start : Nat} {front : Samples}

/-- A recording and its table after some input was recorded from `start` on. -/
def record (u : TableWriter) (store : Store) (start : Nat) (input : Samples) :
    TableWriter × Store :=
  let count := min input.size (store.length - start)
  ({ u with position := if start + count < store.length then some (start + count) else none },
    { store with samples := overwrite store.samples start (input.extract 0 count) })

theorem record_of_count (u : TableWriter) {input : Samples} {count : Nat}
    (h : min input.size (store.length - start) = count) :
    record u store start input =
      ({ u with position := if start + count < store.length then some (start + count) else none },
        { store with samples := overwrite store.samples start (input.extract 0 count) }) := by
  rw [record, h]

/-- As long as the table is not full a recording goes on where it has come to. -/
theorem record_append_of_lt (h : start + front.size < store.length) (back : Samples) :
    (record u store start front).1.position = some (start + front.size) ∧
      record u store start (front ++ back) =
        record (record u store start front).1 (record u store start front).2 (start + front.size)
          back := by
  let count := min back.size (store.length - (start + front.size))
  have hfront := record_of_count u (Nat.min_eq_left (by omega : front.size ≤ store.length - start))
  have hcount : min (front ++ back).size (store.length - start) = front.size + count := by
    rw [Array.size_append]
    omega
  have hextract : (front ++ back).extract 0 (front.size + count) = front ++ back.extract 0 count := by
    rw [Array.extract_append, Array.extract_eq_self_of_le (by omega), Nat.zero_sub,
      Nat.add_sub_cancel_left]
  have hlength : (record u store start front).2.length = store.length := size_overwrite ..
  rw [Array.extract_eq_self_of_le (Nat.le_refl _), if_pos h] at hfront
  refine ⟨congrArg (·.1.position) hfront, ?_⟩
  rw [record_of_count u hcount, hextract, overwrite_append,
    record_of_count (record u store start front).1 (by rw [hlength]), hlength, hfront, ← Nat.add_assoc]

/-- Once the table is full nothing more is recorded. -/
theorem record_append_of_le (hstart : start ≤ store.length) (h : store.length ≤ start + front.size)
    (back : Samples) :
    (record u store start front).1.position = none ∧
      record u store start (front ++ back) = record u store start front := by
  have hfront : min front.size (store.length - start) = store.length - start := by omega
  have hwhole : min (front ++ back).size (store.length - start) = store.length - start := by
    rw [Array.size_append]
    omega
  have hextract : (front ++ back).extract 0 (store.length - start) =
      front.extract 0 (store.length - start) := by
    have hover : store.length - start - front.size = 0 := by omega
    rw [Array.extract_append, Nat.zero_sub, hover, Array.extract_zero, Array.append_empty]
  rw [record_of_count u hfront, record_of_count u hwhole, hextract]
  exact ⟨if_neg (by omega), rfl⟩

/-- What a recording does with its input. -/
theorem process_recording {ins : Inputs} {outs : Outputs} {xs : Samples} {first last : Nat}
    (hposition : u.position = some start) (hstore : outs.store = some store)
    (hstart : start ≤ store.length) (hxs : ins.inlet 0 = .ok xs)
    (hinput : slice xs first last = .ok front) : u.process ins outs first last =
      .ok ((record u store start front).1,
        { outs with store := some (record u store start front).2 }) := by
  unfold process
  rw [hposition]
  dsimp only
  rw [hxs, ok_bind, hinput, ok_bind, hstore]
  exact if_neg (Nat.not_lt.2 hstart)

/-- A recording goes on where it has come to. If the table is full in the first part, nothing of the
second is recorded. -/
theorem seamless (ins : Inputs) : Seamless fun (r : TableWriter × Outputs) => r.1.process ins r.2 := by
  rintro ⟨u, outs⟩ ⟨u', outs'⟩ first middle last hle hle' h
  dsimp only at h ⊢
  have hidle : ∀ {u : TableWriter} {outs : Outputs} {a b : Nat}, u.position = none →
      u.process ins outs a b = .ok (u, outs) := by
    intro u outs a b hposition
    unfold process
    rw [hposition]
    rfl
  cases hposition : u.position with
  | none =>
    rw [hidle hposition] at h
    cases h
    exact ⟨(u, outs), hidle hposition, hidle hposition⟩
  | some start =>
    have hwhole := h
    unfold process at h
    rw [hposition] at h
    obtain ⟨xs, hxs, h⟩ := bind_eq_ok.1 h
    obtain ⟨input, hinput, h⟩ := bind_eq_ok.1 h
    obtain ⟨front, back, hfront, hback, -, rfl⟩ := ByParts.slice xs hle hle' hinput
    cases hstore : outs.store with
    | none =>
      rw [hstore] at h
      cases h
      refine ⟨({ u with position := none }, outs), ?_, hidle rfl⟩
      unfold process
      rw [hposition]
      dsimp only
      rw [hxs, ok_bind, hfront, ok_bind, hstore]
      rfl
    | some store =>
      rw [hstore] at h
      have hstart : start ≤ store.length := by
        by_contra hstart
        dsimp only at h
        rw [if_pos (Nat.not_le.1 hstart)] at h
        cases h
      rw [process_recording hposition hstore hstart hxs hinput] at hwhole
      cases hwhole
      refine ⟨_, process_recording hposition hstore hstart hxs hfront, ?_⟩
      obtain hlt | hfull := Nat.lt_or_ge (start + front.size) store.length
      · obtain ⟨hgoes, hparts⟩ := record_append_of_lt (u := u) hlt back
        have hlength : (record u store start front).2.length = store.length := size_overwrite ..
        rw [process_recording hgoes rfl (hlength ▸ hlt.le) hxs hback, hparts]
      · obtain ⟨hends, hsame⟩ := record_append_of_le (u := u) hstart hfull back
        rw [hidle hends, hsame]

end TableWriter

/-! ### Machines -/

namespace Ramp

/-- The next samples of a ramp, and the ramp behind them. -/
def run (u : Ramp) (count : Nat) : Samples × Ramp :=
  if u.remaining ≤ 0 then (Array.replicate count u.target, { u with current := u.target })
  else feed (fun u _ => u.step) u (silence count)

/-- A ramp that ends on the way ends on its target. -/
theorem current_feed (u : Ramp) (h : ¬ u.remaining ≤ 0) (xs : Samples) :
    let v := (feed (fun u _ => u.step) u xs).2
    v.remaining ≤ 0 → v.current = v.target := by
  refine feed_keeps (P := fun v : Ramp => v.remaining ≤ 0 → v.current = v.target)
    (fun v _ hv => ?_) fun hended => absurd hended h
  unfold step
  split
  · exact fun hended => if_pos hended
  · exact hv

/-- A ramp may be run in two parts, even if it ends in the first. -/
theorem run_add (u : Ramp) (m n : Nat) :
    u.run (m + n) = ((u.run m).1 ++ ((u.run m).2.run n).1, ((u.run m).2.run n).2) := by
  by_cases hended : u.remaining ≤ 0
  · have hrun : ∀ count,
        u.run count = (Array.replicate count u.target, { u with current := u.target }) :=
      fun _ => if_pos hended
    have hrest : { u with current := u.target }.run n =
        (Array.replicate n u.target, { u with current := u.target }) := if_pos hended
    rw [hrun, hrun, hrest, Array.replicate_append_replicate]
  · have hsilence : silence (m + n) = silence m ++ silence n :=
      Array.replicate_append_replicate.symm
    have hrun : ∀ count, u.run count = feed (fun u _ => u.step) u (silence count) :=
      fun _ => if_neg hended
    rw [hrun, hrun, hsilence, feed_append]
    have harrived := u.current_feed hended (silence m)
    generalize (feed (fun u _ => u.step) u (silence m)).2 = v at harrived ⊢
    unfold run
    split
    · next hover =>
      -- what is left is the target, as if the ramp had gone on
      have hstep : v.step = (v.target, v) := if_neg (Single.not_lt_of_le hover)
      have hsize : (silence n).size = n := Array.size_replicate
      have hrest : { v with current := v.target } = v :=
        congrArg (fun value => { v with current := value }) (harrived hover).symm
      rw [feed_of_fixed (s := v) fun _ => hstep, hsize, hrest]
    · rfl

theorem size_run (u : Ramp) (count : Nat) : (u.run count).1.size = count := by
  unfold run
  split
  · exact Array.size_replicate
  · rw [size_feed, silence, Array.size_replicate]

theorem process_eq (u : Ramp) (outs : Outputs) (first last : Nat) :
    u.process outs first last = do
      return ((u.run (last - first)).2,
        ← outs.setOutlet 0 first last (u.run (last - first)).1) := by
  unfold process Outputs.setOutlet Outputs.modifyOutlet
  cases outs.outlet 0 with
  | error e => rfl
  | ok samples =>
    simp only [ok_bind]
    cases h : slice samples first last with
    | error e => rfl
    | ok old =>
      have hsize := size_of_slice h
      have hsilence : old.size = (silence old.size).size := Array.size_replicate.symm
      have hmap : old.map (fun _ => u.target) = Array.replicate old.size u.target :=
        Array.map_const'
      have hfeed : feed (fun (u : Ramp) _ => u.step) u old =
          feed (fun u _ => u.step) u (silence old.size) := feed_of_size (fun _ _ _ => rfl) hsilence
      rw [← hsize]
      unfold run
      simp only [ok_bind]
      split
      · rw [hmap]
      · rw [hfeed]

theorem seamless : Seamless fun (r : Ramp × Outputs) => r.1.process r.2 := by
  rintro ⟨u, outs⟩ ⟨u', outs'⟩ first middle last hle hle' h
  dsimp only at h ⊢
  rw [process_eq] at h
  obtain ⟨_, hset, ⟨⟩⟩ := bind_eq_ok.1 h
  have hlength : last - first = (middle - first) + (last - middle) := by omega
  rw [hlength, run_add] at hset
  obtain ⟨outlets, hfront, hback⟩ := Outputs.setOutlet_append hle hle' (u.size_run _) hset
  refine ⟨((u.run (middle - first)).2, { outs with outlets }), ?_, ?_⟩
  · rw [process_eq]
    exact bind_eq_ok.2 ⟨_, hfront, rfl⟩
  · rw [process_eq, hlength, run_add]
    exact bind_eq_ok.2 ⟨_, hback, rfl⟩

end Ramp

theorem Constant.seamless (u : Constant) : Seamless u.process := by
  have hprocess : u.process = fun outs first last =>
      outs.setOutlet 0 first last (Array.replicate (last - first) u.value) := by
    funext outs first last
    have hmap : ∀ old : Samples, old.map (fun _ => u.value) = Array.replicate old.size u.value :=
      fun _ => Array.map_const'
    unfold process
    simp only [hmap]
    exact Outputs.modifyOutlet_of_size fun count => Array.replicate count u.value
  rw [hprocess]
  exact ByParts.seamless (fun _ => .replicate u.value) (fun _ _ => rfl) 0

theorem Phase.seamless (ins : Inputs) (shape : Float32 → Float32) :
    Seamless fun (r : Phase × Outputs) => r.1.process shape ins r.2 := by
  refine seamless_of_input ins 0 (τ := Phase × Outputs) ?_
  rintro front back ⟨u, outs⟩ ⟨u', outs'⟩ first middle last hfront hback h
  rw [feed_append] at h
  obtain ⟨_, hset, ⟨⟩⟩ := bind_eq_ok.1 h
  rw [Array.map_append] at hset
  have hsize : ((feed step u front).1.map shape).size = middle - first := by
    rw [Array.size_map, size_feed]
    omega
  obtain ⟨outlets, hset₁, hset₂⟩ :=
    Outputs.setOutlet_append (Nat.le.intro hfront) (Nat.le.intro hback) hsize hset
  exact ⟨((feed step u front).2, { outs with outlets }), bind_eq_ok.2 ⟨_, hset₁, rfl⟩,
    bind_eq_ok.2 ⟨_, hset₂, rfl⟩⟩

end Catalogue

/-! ## Every unit -/

namespace Seamless

variable {σ τ : Type}

/-- What has no state of its own leaves it as it is. -/
theorem beside {work : τ → Nat → Nat → Except Fault τ} (h : Seamless work) (s : σ) {t : τ} {r : σ × τ}
    {first middle last : Nat} (hle : first ≤ middle) (hle' : middle ≤ last)
    (hwhole : (do return (s, ← work t first last)) = Except.ok r) :
    ∃ half, (do return (s, ← work t first middle)) = Except.ok (s, half) ∧
      (do return (s, ← work half middle last)) = Except.ok r := by
  obtain ⟨t', hwork, ⟨⟩⟩ := bind_eq_ok.1 hwhole
  obtain ⟨half, hfront, hback⟩ := h hle hle' hwork
  exact ⟨half, bind_eq_ok.2 ⟨half, hfront, rfl⟩, bind_eq_ok.2 ⟨t', hback, rfl⟩⟩

/-- What has a state of its own carries it from part to part. -/
theorem within {σ' : Type} {work : σ × τ → Nat → Nat → Except Fault (σ × τ)} (h : Seamless work)
    (f : σ → σ') {t : σ × τ} {r : σ' × τ} {first middle last : Nat} (hle : first ≤ middle)
    (hle' : middle ≤ last)
    (hwhole : (work t first last >>= fun t => pure (f t.1, t.2)) = Except.ok r) :
    ∃ half, (work t first middle >>= fun t => pure (f t.1, t.2)) = Except.ok (f half.1, half.2) ∧
      (work half middle last >>= fun t => pure (f t.1, t.2)) = Except.ok r := by
  obtain ⟨t', hwork, ⟨⟩⟩ := bind_eq_ok.1 hwhole
  obtain ⟨half, hfront, hback⟩ := h hle hle' hwork
  exact ⟨half, bind_eq_ok.2 ⟨half, hfront, rfl⟩, bind_eq_ok.2 ⟨t', hback, rfl⟩⟩

end Seamless

namespace CatalogueUnit

theorem seamless (ins : Inputs) :
    Seamless fun (r : CatalogueUnit × Outputs) => r.1.process ins r.2 := by
  rintro ⟨u, outs⟩ r first middle last hle hle' h
  dsimp only at h ⊢
  cases u with
  | hostInput v =>
    obtain ⟨half, hparts⟩ := (v.seamless ins).beside (hostInput v) hle hle' h
    exact ⟨(hostInput v, half), hparts⟩
  | hostOutput v =>
    obtain ⟨half, hparts⟩ := (v.seamless ins).beside (hostOutput v) hle hle' h
    exact ⟨(hostOutput v, half), hparts⟩
  | constant v =>
    obtain ⟨half, hparts⟩ := v.seamless.beside (constant v) hle hle' h
    exact ⟨(constant v, half), hparts⟩
  | ramp v =>
    obtain ⟨half, hparts⟩ := Ramp.seamless.within ramp (t := (v, outs)) hle hle' h
    exact ⟨(ramp half.1, half.2), hparts⟩
  | oscillator shape v =>
    obtain ⟨half, hparts⟩ := (Phase.seamless ins shape.value).within (oscillator shape)
      (t := (v, outs)) hle hle' h
    exact ⟨(oscillator shape half.1, half.2), hparts⟩
  | streamOperator v =>
    obtain ⟨half, hparts⟩ := (v.seamless ins).beside (streamOperator v) hle hle' h
    exact ⟨(streamOperator v, half), hparts⟩
  | linkWriter v =>
    obtain ⟨half, hparts⟩ := (v.seamless ins).beside (linkWriter v) hle hle' h
    exact ⟨(linkWriter v, half), hparts⟩
  | linkReader v =>
    obtain ⟨half, hparts⟩ := LinkReader.seamless.beside (linkReader v) hle hle' h
    exact ⟨(linkReader v, half), hparts⟩
  | tableWriter v =>
    obtain ⟨half, hparts⟩ := (TableWriter.seamless ins).within tableWriter (t := (v, outs)) hle hle' h
    exact ⟨(tableWriter half.1, half.2), hparts⟩
  | tableReader v =>
    obtain ⟨half, hparts⟩ := (TableReader.seamless ins).beside (tableReader v) hle hle' h
    exact ⟨(tableReader v, half), hparts⟩
  | delayWriter v =>
    obtain ⟨half, hparts⟩ := (DelayWriter.seamless ins).beside (delayWriter v) hle hle' h
    exact ⟨(delayWriter v, half), hparts⟩
  | delayReader v =>
    obtain ⟨half, hparts⟩ := (v.seamless ins).beside (delayReader v) hle hle' h
    exact ⟨(delayReader v, half), hparts⟩
  | messageOperator | port | table | floatBox | metro | delay | print | messageSender
  | messageReceiver =>
    cases h
    exact ⟨_, rfl, rfl⟩

/-- Nor does it matter into how many pieces a block is cut. -/
theorem inPieces_eq_process {u : CatalogueUnit} {ins : Inputs} {outs : Outputs}
    {whole : CatalogueUnit × Outputs} {first middle last : Nat} {pieces : List (Nat × Nat)}
    (hle : first ≤ middle) (htiles : Tiles middle last pieces)
    (h : u.process ins outs first last = .ok whole) :
    inPieces u ins outs ((first, middle) :: pieces) = .ok whole :=
  (seamless ins).pieces hle htiles h

/-- Splitting a block is inaudible: the work on a range followed by that on the next leaves a unit, its
outlets, bus and store, and the host's output as the work on both at once does. That there is a result
at all takes no more than buffers of the right length. -/
theorem process_in_two (u : CatalogueUnit) (ins : Inputs) (outs : Outputs) {first middle last : Nat}
    (hle : first ≤ middle) (hle' : middle ≤ last) :
    (∀ whole, u.process ins outs first last = .ok whole →
      (do let (v, half) ← u.process ins outs first middle
          v.process ins half middle last) = .ok whole) ∧
    ∀ {settings : Settings} {room : Option Nat}, settings.HasRoom → u.computes = true →
      u.Fits settings room → ins.Ready settings.blockSize →
      outs.Ready settings.blockSize u.ports.streamOutlets room → last ≤ settings.blockSize →
      ∃ whole, u.process ins outs first last = .ok whole := by
  constructor
  · intro whole h
    obtain ⟨half, hfront, hback⟩ := seamless ins (t := (u, outs)) hle hle' h
    exact bind_eq_ok.2 ⟨half, hfront, hback⟩
  · intro settings room hs hcomputes hfits hins houts hlast
    obtain ⟨whole, hwhole, -⟩ :=
      (process_succeeds hs hcomputes hfits hins houts (hle.trans hle') hlast).exists_ok
    exact ⟨whole, hwhole⟩

/-- A recording into a table of three samples that goes on at the second of them, cut behind the place
where the table is full. -/
theorem process_in_two_recording :
    let settings : Settings := ⟨1000, 4, 0, 0⟩
    let u := tableWriter { name := .ofString "loop", position := some 1 }
    let ins : Inputs :=
      { pool := { blockSize := 4, buffers := #[#[1, 2, 3, 4]] }
        inlets := #[.pooled 0]
        hostInput := #[]
        blockSize := 4 }
    let outs : Outputs :=
      { outlets := #[], store := some { samples := silence 3 }, hostOutput := #[], blockSize := 4 }
    0 ≤ 3 ∧ 3 ≤ 4 ∧ settings.HasRoom ∧ u.computes = true ∧ u.Fits settings (some 3) ∧
      ins.Ready 4 ∧ outs.Ready 4 u.ports.streamOutlets (some 3) ∧
      ∃ whole, u.process ins outs 0 4 = .ok whole ∧
        (do let (v, half) ← u.process ins outs 0 3
            v.process ins half 3 4) = .ok whole := by
  intro settings u ins outs
  have hs : settings.HasRoom := ⟨by decide, by decide, by decide⟩
  have hfits : u.Fits settings (some 3) := by
    rintro _ _ ⟨⟩ ⟨⟩
    decide
  have hins : ins.Ready 4 := by
    refine ⟨fun k => ?_, rfl, rfl⟩
    cases k <;> rfl
  have houts : outs.Ready 4 u.ports.streamOutlets (some 3) := by
    refine ⟨nofun, nofun, rfl, ?_, rfl⟩
    rintro _ ⟨⟩
    exact ⟨.inl rfl, by decide⟩
  obtain ⟨hsame, hends⟩ := process_in_two u ins outs (by decide : 0 ≤ 3) (by decide : 3 ≤ 4)
  obtain ⟨whole, hwhole⟩ := hends hs rfl hfits hins houts (Nat.le_refl 4)
  exact ⟨by decide, by decide, hs, rfl, hfits, hins, houts, whole, hwhole, hsame whole hwhole⟩

end CatalogueUnit
end Patchbay
