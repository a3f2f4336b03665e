import Patchbay.Proofs.Catalogue.Computing

/-!
# Work that may be interrupted

Work on a range of a block is `Seamless` if it may be interrupted anywhere: the work on a first part
followed by that on the rest comes to the same. Then it may be cut into any number of pieces
(`Seamless.pieces`). What reads its samples part by part and writes them to an outlet is seamless
(`ByParts.seamless`), and so is a loop over channels (`Seamless.loop`).
-/

namespace Patchbay

open Catalogue

/-- That work on a range may be interrupted: if it ends, the work on a first part of the range
followed by that on the rest ends too, in the same. -/
def Seamless {τ : Type} (work : τ → Nat → Nat → Except Fault τ) : Prop :=
  ∀ ⦃t t' first middle last⦄, first ≤ middle → middle ≤ last → work t first last = .ok t' →
    ∃ half, work t first middle = .ok half ∧ work half middle last = .ok t'

namespace Seamless

variable {τ : Type} {work : τ → Nat → Nat → Except Fault τ}

/-- What may be interrupted once may be so any number of times. -/
theorem pieces (h : Seamless work) {first last : Nat} {rest : List (Nat × Nat)} {middle : Nat}
    (hle : first ≤ middle) (htiles : Tiles middle last rest) {t t' : τ}
    (hwhole : work t first last = .ok t') :
    ((first, middle) :: rest).foldlM (fun t (a, b) => work t a b) t = .ok t' := by
  induction rest generalizing t first middle with
  | nil =>
    cases htiles
    exact bind_eq_ok.2 ⟨t', hwhole, rfl⟩
  | cons piece rest ih =>
    obtain ⟨rfl, hpiece, hrest⟩ := htiles
    obtain ⟨half, hfront, hback⟩ := h hle (hpiece.trans hrest.le) hwhole
    exact bind_eq_ok.2 ⟨half, hfront, ih hpiece hrest hback⟩

/-- A loop may be interrupted if each turn may, and if it does not matter which comes first: the rest
of one turn, or the first part of another. -/
theorem loop {work : Nat → τ → Nat → Nat → Except Fault τ} (hwork : ∀ c, Seamless (work c))
    (hswap : ∀ {c d}, c ≠ d → ∀ {t t' t'' first middle last}, first ≤ middle → middle ≤ last →
      work c t middle last = .ok t' → work d t' first middle = .ok t'' →
      ∃ half, work d t first middle = .ok half ∧ work c half middle last = .ok t'')
    {turns : List Nat} (hnodup : turns.Nodup) :
    Seamless fun t first last => turns.foldlM (fun t c => work c t first last) t := by
  intro t t' first middle last hle hle' hwhole
  -- the rest of a turn that is not among them may wait for all first parts
  have hwait : ∀ {c} {turns : List Nat}, c ∉ turns → ∀ {t t' t''}, work c t middle last = .ok t' →
      turns.foldlM (fun t d => work d t first middle) t' = .ok t'' →
      ∃ half, turns.foldlM (fun t d => work d t first middle) t = .ok half ∧
        work c half middle last = .ok t'' := by
    intro c turns hc
    induction turns with
    | nil =>
      rintro t t' _ hback ⟨⟩
      exact ⟨t, rfl, hback⟩
    | cons d turns ih =>
      intro t t' t'' hback hfronts
      obtain ⟨hcd, hc⟩ := List.ne_and_not_mem_of_not_mem_cons hc
      obtain ⟨t₁, hfront, hfronts⟩ := bind_eq_ok.1 hfronts
      obtain ⟨half, hfront', hback'⟩ := hswap hcd hle hle' hback hfront
      obtain ⟨half', hfronts', hback''⟩ := ih hc hback' hfronts
      exact ⟨half', bind_eq_ok.2 ⟨half, hfront', hfronts'⟩, hback''⟩
  induction turns generalizing t t' with
  | nil => exact ⟨t, rfl, hwhole⟩
  | cons c turns ih =>
    obtain ⟨hc, hnodup⟩ := List.nodup_cons.1 hnodup
    obtain ⟨t₁, hturn, hturns⟩ := bind_eq_ok.1 hwhole
    obtain ⟨half, hfront, hback⟩ := hwork c hle hle' hturn
    obtain ⟨t₂, hfronts, hbacks⟩ := ih hnodup hturns
    obtain ⟨t₃, hfronts', hback'⟩ := hwait hc hback hfronts
    exact ⟨t₃, bind_eq_ok.2 ⟨half, hfront, hfronts'⟩, bind_eq_ok.2 ⟨t₂, hback', hbacks⟩⟩

end Seamless

/-! ## Ranges of samples -/

section Ranges

variable {xs ys zs : Samples} {first middle last : Nat}

theorem checked_eq_ok {m n : Nat} : checked m = .ok n ↔ m < wordSize ∧ n = m := by
  unfold checked
  split <;> simp_all [eq_comm]

theorem slice_eq_ok : slice xs first last = .ok ys ↔
    first ≤ last ∧ last ≤ xs.size ∧ ys = xs.extract first last := by
  unfold slice
  split
  · next h => simp [h, eq_comm]
  · next h =>
    refine ⟨nofun, fun hok => absurd ⟨hok.1, hok.2.1⟩ h⟩

theorem size_of_slice (h : slice xs first last = .ok ys) : ys.size = last - first := by
  obtain ⟨-, hlast, rfl⟩ := slice_eq_ok.1 h
  rw [Array.size_extract, Nat.min_eq_left hlast]

/-- What overwrites a range may do so in two parts. -/
theorem overwrite_append : overwrite xs first (ys ++ zs) =
    overwrite (overwrite xs first ys) (first + ys.size) zs := by
  have hindex : ∀ (l : List Float32) (i : Nat) (zs : Samples),
      (l.foldl (fun (s : Nat × Samples) y => (s.1 + 1, s.2.setIfInBounds s.1 y)) (i, zs)).1 =
        i + l.length := by
    intro l
    induction l with
    | nil => exact fun _ _ => rfl
    | cons y l ih =>
      intro i zs
      rw [List.foldl_cons, ih, List.length_cons]
      omega
  simp only [overwrite, ← Array.foldl_toList, Array.toList_append, List.foldl_append]
  congr 2
  refine Prod.ext ?_ rfl
  rw [hindex, Array.length_toList]

/-- What is overwritten leaves the range behind it as it was. -/
theorem slice_overwrite (hsize : first + ys.size ≤ middle) :
    slice (overwrite xs first ys) middle last = slice xs middle last := by
  unfold slice
  rw [size_overwrite]
  split
  · next h =>
    refine congrArg Except.ok (Array.ext_getElem? fun i => ?_)
    rw [Array.getElem?_extract, Array.getElem?_extract, size_overwrite]
    split
    · rw [getElem?_overwrite _ _ _ _ (by omega), if_neg (by omega)]
    · rfl
  · rfl

section Feed

/-- Samples are put together from none, one behind the other. -/
@[elab_as_elim]
theorem samples_induction {P : Samples → Prop} (empty : P #[])
    (push : ∀ xs x, P xs → P (xs.push x)) (xs : Samples) : P xs := by
  obtain ⟨l⟩ := xs
  induction l using List.reverseRecOn with
  | nil => exact empty
  | append_singleton l x ih =>
    have hpush : (⟨l ++ [x]⟩ : Samples) = Array.push ⟨l⟩ x := (List.push_toArray l x).symm
    rw [hpush]
    exact push _ x ih

variable {σ : Type} (step : σ → Float32 → Float32 × σ) (s : σ)

theorem feed_push (x : Float32) : feed step s (xs.push x) =
    ((feed step s xs).1.push (step (feed step s xs).2 x).1, (step (feed step s xs).2 x).2) := by
  rw [feed, Array.foldl_push]
  rfl

/-- A machine may be fed in two parts. -/
theorem feed_append : feed step s (xs ++ ys) =
    ((feed step s xs).1 ++ (feed step (feed step s xs).2 ys).1,
      (feed step (feed step s xs).2 ys).2) := by
  induction ys using samples_induction with
  | empty => simp [feed]
  | push ys y ih => rw [Array.append_push, feed_push, ih, feed_push, Array.append_push]

theorem size_feed : (feed step s xs).1.size = xs.size := by
  induction xs using samples_induction with
  | empty => rfl
  | push xs x ih => rw [feed_push, Array.size_push, ih, Array.size_push]

variable {step s}

/-- What every step keeps is kept. -/
theorem feed_keeps {P : σ → Prop} (hstep : ∀ s x, P s → P (step s x).2) (h : P s) :
    P (feed step s xs).2 := by
  induction xs using samples_induction with
  | empty => exact h
  | push xs x ih =>
    rw [feed_push]
    exact hstep _ x ih

/-- A machine that stays as it is gives one answer throughout. -/
theorem feed_of_fixed {y : Float32} (hstep : ∀ x, step s x = (y, s)) :
    feed step s xs = (Array.replicate xs.size y, s) := by
  induction xs using samples_induction with
  | empty => rfl
  | push xs x ih =>
    rw [feed_push, ih, Array.size_push, Array.replicate_succ]
    dsimp only
    rw [hstep]

/-- A machine that does not look at its input is told apart by the length of it alone. -/
theorem feed_of_size (hstep : ∀ s x x', step s x = step s x') (h : xs.size = ys.size) :
    feed step s xs = feed step s ys := by
  induction xs using samples_induction generalizing ys with
  | empty => rw [Array.size_eq_zero_iff.1 h.symm]
  | push xs x ih =>
    induction ys using samples_induction with
    | empty => simp at h
    | push ys y _ =>
      rw [Array.size_push, Array.size_push] at h
      rw [feed_push, feed_push, ih (Nat.succ_inj.1 h), hstep _ x y]

end Feed

end Ranges

/-! ## Outlets -/

namespace Outputs

variable {outs outs' : Outputs} {ys zs : Samples} {k first middle last : Nat}

theorem setOutlet_eq_ok : outs.setOutlet k first last ys = .ok outs' ↔
    ∃ samples, outs.outlets[k]? = some samples ∧ first ≤ last ∧ last ≤ samples.size ∧
      outs' = { outs with
        outlets := outs.outlets.setIfInBounds k (overwrite samples first ys) } := by
  unfold setOutlet modifyOutlet outlet
  cases outs.outlets[k]? with
  | none => exact ⟨nofun, fun ⟨_, h, _⟩ => nomatch h⟩
  | some samples =>
    rw [ok_bind, bind_eq_ok]
    constructor
    · rintro ⟨_, hslice, ⟨⟩⟩
      obtain ⟨hle, hlast, rfl⟩ := slice_eq_ok.1 hslice
      exact ⟨samples, rfl, hle, hlast, rfl⟩
    · rintro ⟨_, ⟨⟩, hle, hlast, rfl⟩
      exact ⟨_, slice_eq_ok.2 ⟨hle, hlast, rfl⟩, rfl⟩

/-- If only the length of the old samples matters, then they need not be read. -/
theorem modifyOutlet_of_size (ys : Nat → Samples) :
    outs.modifyOutlet k first last (fun old => .ok (ys old.size)) =
      outs.setOutlet k first last (ys (last - first)) := by
  unfold setOutlet modifyOutlet
  cases outs.outlet k with
  | error e => rfl
  | ok samples =>
    rw [ok_bind, ok_bind]
    cases h : slice samples first last with
    | error e => rfl
    | ok old =>
      have hsize := size_of_slice h
      rw [ok_bind, ok_bind, hsize]
      rfl

/-- A range of an outlet may be written in two parts, and nothing but the outlets is touched in
between. -/
theorem setOutlet_append (hle : first ≤ middle) (hle' : middle ≤ last)
    (hsize : ys.size = middle - first) (h : outs.setOutlet k first last (ys ++ zs) = .ok outs') :
    ∃ outlets, outs.setOutlet k first middle ys = .ok { outs with outlets } ∧
      { outs with outlets }.setOutlet k middle last zs = .ok outs' := by
  obtain ⟨samples, hk, -, hlast, rfl⟩ := setOutlet_eq_ok.1 h
  have hin : k < outs.outlets.size := (Array.getElem?_eq_some_iff.1 hk).1
  refine ⟨_, setOutlet_eq_ok.2 ⟨samples, hk, hle, hle'.trans hlast, rfl⟩, setOutlet_eq_ok.2
    ⟨overwrite samples first ys, Array.getElem?_setIfInBounds_self_of_lt hin, hle',
      by rwa [size_overwrite], ?_⟩⟩
  have hmiddle : first + ys.size = middle := by omega
  rw [overwrite_append, hmiddle]
  simp

/-- Two outlets may be written in either order. -/
theorem setOutlet_comm {j : Nat} (hkj : k ≠ j) {outs'' : Outputs} {first' last' : Nat}
    (h : outs.setOutlet k first last ys = .ok outs')
    (h' : outs'.setOutlet j first' last' zs = .ok outs'') :
    ∃ half, outs.setOutlet j first' last' zs = .ok half ∧
      half.setOutlet k first last ys = .ok outs'' := by
  obtain ⟨samples, hk, hle, hlast, rfl⟩ := setOutlet_eq_ok.1 h
  obtain ⟨samples', hj, hle', hlast', rfl⟩ := setOutlet_eq_ok.1 h'
  rw [Array.getElem?_setIfInBounds_ne hkj] at hj
  refine ⟨_, setOutlet_eq_ok.2 ⟨samples', hj, hle', hlast', rfl⟩, setOutlet_eq_ok.2
    ⟨samples, ?_, hle, hlast, ?_⟩⟩
  · rwa [Array.getElem?_setIfInBounds_ne hkj.symm]
  · rw [Array.setIfInBounds_comm _ _ hkj]

end Outputs

/-- That a range of samples is made of those of its two parts. -/
def ByParts (piece : Nat → Nat → Except Fault Samples) : Prop :=
  ∀ ⦃ys first middle last⦄, first ≤ middle → middle ≤ last → piece first last = .ok ys →
    ∃ front back, piece first middle = .ok front ∧ piece middle last = .ok back ∧
      front.size = middle - first ∧ ys = front ++ back

namespace ByParts

variable {piece : Nat → Nat → Except Fault Samples}

theorem slice (xs : Samples) : ByParts (Patchbay.slice xs) := by
  intro ys first middle last hle hle' h
  obtain ⟨-, hlast, rfl⟩ := slice_eq_ok.1 h
  refine ⟨_, _, slice_eq_ok.2 ⟨hle, hle'.trans hlast, rfl⟩, slice_eq_ok.2 ⟨hle', hlast, rfl⟩, ?_, ?_⟩
  · rw [Array.size_extract, Nat.min_eq_left (hle'.trans hlast)]
  · rw [Array.extract_append_extract, Nat.min_eq_left hle, Nat.max_eq_right hle']

/-- What the samples are read from may itself be missing. -/
theorem of_source {α : Type} (source : Except Fault α) {piece : α → Nat → Nat → Except Fault Samples}
    (h : ∀ a, ByParts (piece a)) : ByParts fun first last => source >>= fun a => piece a first last := by
  cases source with
  | error e => exact nofun
  | ok a => exact h a

theorem map (h : ByParts piece) (f : Float32 → Float32) :
    ByParts fun first last => do return (← piece first last).map f := by
  intro ys first middle last hle hle' hpiece
  obtain ⟨xs, hxs, ⟨⟩⟩ := bind_eq_ok.1 hpiece
  obtain ⟨front, back, hfront, hback, hsize, rfl⟩ := h hle hle' hxs
  exact ⟨front.map f, back.map f, bind_eq_ok.2 ⟨front, hfront, rfl⟩, bind_eq_ok.2 ⟨back, hback, rfl⟩,
    by rw [Array.size_map, hsize], Array.map_append⟩

theorem zipWith {piece' : Nat → Nat → Except Fault Samples} (h : ByParts piece) (h' : ByParts piece')
    (f : Float32 → Float32 → Float32) : ByParts fun first last => do
      let xs ← piece first last
      return Array.zipWith f xs (← piece' first last) := by
  intro ys first middle last hle hle' hpiece
  obtain ⟨xs, hxs, hpiece⟩ := bind_eq_ok.1 hpiece
  obtain ⟨xs', hxs', ⟨⟩⟩ := bind_eq_ok.1 hpiece
  obtain ⟨front, back, hfront, hback, hsize, rfl⟩ := h hle hle' hxs
  obtain ⟨front', back', hfront', hback', hsize', rfl⟩ := h' hle hle' hxs'
  refine ⟨_, _, bind_eq_ok.2 ⟨front, hfront, bind_eq_ok.2 ⟨front', hfront', rfl⟩⟩,
    bind_eq_ok.2 ⟨back, hback, bind_eq_ok.2 ⟨back', hback', rfl⟩⟩, ?_, ?_⟩
  · rw [Array.size_zipWith, hsize, hsize', Nat.min_self]
  · rw [Array.zipWith_append (hsize.trans hsize'.symm)]

/-- Samples that are told by their offset alone. -/
theorem of_offset (y : Nat → Float32) :
    ByParts fun first last => .ok ((Array.range' first (last - first)).map y) := by
  rintro _ first middle last hle hle' ⟨⟩
  refine ⟨_, _, rfl, rfl, by simp, ?_⟩
  rw [← Array.map_append]
  have hlength : last - first = (middle - first) + (last - middle) := by omega
  have hmiddle : middle = first + (middle - first) := by omega
  rw [hlength, ← Array.range'_append_1, ← hmiddle]

theorem replicate (y : Float32) :
    ByParts fun first last => .ok (Array.replicate (last - first) y) := by
  rintro _ first middle last hle hle' ⟨⟩
  have hlength : last - first = (middle - first) + (last - middle) := by omega
  exact ⟨_, _, rfl, rfl, Array.size_replicate, by rw [Array.replicate_append_replicate, hlength]⟩

/-- What is made part by part may be sent part by part. -/
theorem seamless {piece : Outputs → Nat → Nat → Except Fault Samples}
    (h : ∀ outs, ByParts (piece outs))
    (hsame : ∀ outs outlets, piece { outs with outlets } = piece outs) (k : Nat) :
    Seamless fun outs first last => piece outs first last >>= outs.setOutlet k first last := by
  intro outs outs' first middle last hle hle' hwhole
  obtain ⟨ys, hys, hset⟩ := bind_eq_ok.1 hwhole
  obtain ⟨front, back, hfront, hback, hsize, rfl⟩ := h outs hle hle' hys
  obtain ⟨outlets, hset₁, hset₂⟩ := Outputs.setOutlet_append hle hle' hsize hset
  refine ⟨_, bind_eq_ok.2 ⟨front, hfront, hset₁⟩, bind_eq_ok.2 ⟨back, ?_, hset₂⟩⟩
  rwa [hsame]

end ByParts

/-! ## The host's output -/

/-- Samples with others added to those from `start` on. -/
def mixedFrom (xs : Samples) (start : Nat) (ys : Samples) : Samples :=
  overwrite xs start (Array.zipWith (· + ·) (xs.extract start (start + ys.size)) ys)

section Mixed

variable {xs ys zs : Samples} {start : Nat}

theorem size_mixedFrom : (mixedFrom xs start ys).size = xs.size := size_overwrite ..

theorem getElem?_mixedFrom (h : start + ys.size ≤ xs.size) (i : Nat) :
    (mixedFrom xs start ys)[i]? = if start ≤ i ∧ i < start + ys.size then
      Option.map₂ (· + ·) xs[i]? ys[i - start]? else xs[i]? := by
  have hsize : (Array.zipWith (· + ·) (xs.extract start (start + ys.size)) ys).size = ys.size := by
    rw [Array.size_zipWith, Array.size_extract]
    omega
  rw [mixedFrom, getElem?_overwrite _ _ _ _ (by omega), hsize]
  split
  · next hi =>
    rw [Array.getElem?_zipWith, Array.getElem?_extract, if_pos (by omega),
      Nat.add_sub_cancel' hi.1]
    cases xs[i]? <;> cases ys[i - start]? <;> rfl
  · rfl

/-- Samples may be added in two parts. -/
theorem mixedFrom_append (h : start + ys.size + zs.size ≤ xs.size) :
    mixedFrom xs start (ys ++ zs) = mixedFrom (mixedFrom xs start ys) (start + ys.size) zs := by
  refine Array.ext_getElem? fun i => ?_
  rw [getElem?_mixedFrom (by rw [Array.size_append]; omega),
    getElem?_mixedFrom (by rw [size_mixedFrom]; omega), getElem?_mixedFrom (by omega),
    Array.size_append, Array.getElem?_append]
  grind

/-- Samples may be added in either order where they do not meet. -/
theorem mixedFrom_comm {start' : Nat} (hy : start + ys.size ≤ xs.size)
    (hz : start' + zs.size ≤ xs.size) (happart : start + ys.size ≤ start' ∨ start' + zs.size ≤ start) :
    mixedFrom (mixedFrom xs start ys) start' zs = mixedFrom (mixedFrom xs start' zs) start ys := by
  refine Array.ext_getElem? fun i => ?_
  rw [getElem?_mixedFrom (by rwa [size_mixedFrom]), getElem?_mixedFrom hy,
    getElem?_mixedFrom (by rwa [size_mixedFrom]), getElem?_mixedFrom hz]
  grind

end Mixed

namespace Outputs

variable {outs outs' : Outputs} {ys zs : Samples} {channel first middle last : Nat}

/-- A channel lies where the channels before it end, and all of it is there. -/
theorem hostChannel?_eq_some {start : Nat} (h : outs.hostChannel? channel = .ok (some start)) :
    start = channel * outs.blockSize ∧ start + outs.blockSize ≤ outs.hostOutput.size := by
  obtain ⟨_, hrange, h⟩ := bind_eq_ok.1 h
  obtain ⟨c, hmul, hrange⟩ := bind_eq_ok.1 hrange
  obtain ⟨d, hadd, ⟨⟩⟩ := bind_eq_ok.1 hrange
  obtain ⟨-, rfl⟩ := checked_eq_ok.1 hmul
  obtain ⟨-, rfl⟩ := checked_eq_ok.1 hadd
  dsimp only at h
  split at h
  · next hfits =>
    cases h
    exact ⟨rfl, hfits⟩
  · cases h

/-- What is added to the channels moves none of them. -/
theorem hostChannel?_congr {hostOutput : Samples} (h : hostOutput.size = outs.hostOutput.size) :
    { outs with hostOutput }.hostChannel? channel = outs.hostChannel? channel := by
  simp only [hostChannel?, h]

theorem addToHost_eq_ok (hsize : ys.size = last - first) :
    outs.addToHost channel first last ys = .ok outs' ↔
      outs.hostChannel? channel = .ok none ∧ outs' = outs ∨
      ∃ start, outs.hostChannel? channel = .ok (some start) ∧ first ≤ last ∧ last ≤ outs.blockSize ∧
        outs' = { outs with hostOutput := mixedFrom outs.hostOutput (start + first) ys } := by
  have hpart : ∀ {start}, first ≤ last → last ≤ outs.blockSize →
      (outs.hostOutput.extract start (start + outs.blockSize)).extract first last =
        outs.hostOutput.extract (start + first) (start + first + ys.size) := by
    intro start hle hlast
    rw [Array.extract_extract, hsize, Nat.min_eq_left (by omega), Nat.add_assoc,
      Nat.add_sub_cancel' hle]
  unfold addToHost
  rw [bind_eq_ok]
  constructor
  · rintro ⟨start?, hstart, h⟩
    cases start? with
    | none =>
      cases h
      exact .inl ⟨hstart, rfl⟩
    | some start =>
      obtain ⟨-, hfits⟩ := hostChannel?_eq_some hstart
      obtain ⟨_, hslice, ⟨⟩⟩ := bind_eq_ok.1 h
      obtain ⟨hle, hlast, rfl⟩ := slice_eq_ok.1 hslice
      rw [Array.size_extract, Nat.min_eq_left hfits, Nat.add_sub_cancel_left] at hlast
      rw [hpart hle hlast]
      exact .inr ⟨start, hstart, hle, hlast, rfl⟩
  · rintro (⟨hstart, rfl⟩ | ⟨start, hstart, hle, hlast, rfl⟩)
    · exact ⟨none, hstart, rfl⟩
    · obtain ⟨-, hfits⟩ := hostChannel?_eq_some hstart
      refine ⟨some start, hstart, bind_eq_ok.2 ⟨_, slice_eq_ok.2 ⟨hle, ?_, rfl⟩, ?_⟩⟩
      · rwa [Array.size_extract, Nat.min_eq_left hfits, Nat.add_sub_cancel_left]
      · rw [hpart hle hlast]
        rfl

/-- A range of a channel may be added to in two parts. -/
theorem addToHost_append (hle : first ≤ middle) (hle' : middle ≤ last)
    (hy : ys.size = middle - first) (hz : zs.size = last - middle)
    (h : outs.addToHost channel first last (ys ++ zs) = .ok outs') :
    ∃ half, outs.addToHost channel first middle ys = .ok half ∧
      half.addToHost channel middle last zs = .ok outs' := by
  have hsize : (ys ++ zs).size = last - first := by
    rw [Array.size_append]
    omega
  obtain ⟨hstart, rfl⟩ | ⟨start, hstart, -, hlast, rfl⟩ := (addToHost_eq_ok hsize).1 h
  · exact ⟨outs', (addToHost_eq_ok hy).2 (.inl ⟨hstart, rfl⟩),
      (addToHost_eq_ok hz).2 (.inl ⟨hstart, rfl⟩)⟩
  · obtain ⟨-, hfits⟩ := hostChannel?_eq_some hstart
    refine ⟨_, (addToHost_eq_ok hy).2 (.inr ⟨start, hstart, hle, hle'.trans hlast, rfl⟩),
      (addToHost_eq_ok hz).2 (.inr ⟨start, ?_, hle', hlast, ?_⟩)⟩
    · rwa [hostChannel?_congr size_mixedFrom]
    · have hmiddle : start + first + ys.size = start + middle := by omega
      rw [mixedFrom_append (by omega), hmiddle]

/-- Ranges of two channels may be added to in either order. -/
theorem addToHost_comm {other : Nat} (hne : channel ≠ other) {outs'' : Outputs}
    {first' last' : Nat} (hy : ys.size = last - first) (hz : zs.size = last' - first')
    (h : outs.addToHost channel first last ys = .ok outs')
    (h' : outs'.addToHost other first' last' zs = .ok outs'') :
    ∃ half, outs.addToHost other first' last' zs = .ok half ∧
      half.addToHost channel first last ys = .ok outs'' := by
  obtain ⟨hstart, rfl⟩ | ⟨start, hstart, hle, hlast, rfl⟩ := (addToHost_eq_ok hy).1 h
  · refine ⟨outs'', h', (addToHost_eq_ok hy).2 (.inl ⟨?_, rfl⟩)⟩
    obtain ⟨-, rfl⟩ | ⟨start', -, -, -, rfl⟩ := (addToHost_eq_ok hz).1 h'
    · exact hstart
    · rwa [hostChannel?_congr size_mixedFrom]
  · obtain ⟨hstart', rfl⟩ | ⟨start', hstart', hle', hlast', rfl⟩ := (addToHost_eq_ok hz).1 h'
    · rw [hostChannel?_congr size_mixedFrom] at hstart'
      exact ⟨outs, (addToHost_eq_ok hz).2 (.inl ⟨hstart', rfl⟩), h⟩
    · rw [hostChannel?_congr size_mixedFrom] at hstart'
      refine ⟨_, (addToHost_eq_ok hz).2 (.inr ⟨start', hstart', hle', hlast', rfl⟩),
        (addToHost_eq_ok hy).2 (.inr ⟨start, ?_, hle, hlast, ?_⟩)⟩
      · rwa [hostChannel?_congr size_mixedFrom]
      · obtain ⟨rfl, hfits⟩ := hostChannel?_eq_some hstart
        obtain ⟨rfl, hfits'⟩ := hostChannel?_eq_some hstart'
        dsimp only at hlast' ⊢
        -- the earlier of the two channels ends before the later one begins
        have happart : channel * outs.blockSize + outs.blockSize ≤ other * outs.blockSize ∨
            other * outs.blockSize + outs.blockSize ≤ channel * outs.blockSize := by
          simp only [← Nat.succ_mul]
          exact (Nat.lt_or_gt_of_ne hne).imp (Nat.mul_le_mul_right _) (Nat.mul_le_mul_right _)
        rw [mixedFrom_comm (by omega) (by omega) (by omega)]

end Outputs
end Patchbay
