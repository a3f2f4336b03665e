import Patchbay.Engine.Block
import Patchbay.Proofs.Outcome
import Patchbay.Proofs.Planning.Memory

/-!
# Buffers at work

While a plan runs, buffers are read and written, but none is handed out or given back
(`Pool.SameBooks`). `Pool.Stores` gives the samples in every buffer. A sum writes one of them
(`sumInto_spec`); a unit takes the buffers at its own outlets out of the pool, and puts back what it
has written (`takeOutlets_spec`, `returnOutlets_spec`).
-/

namespace Patchbay

namespace Pool

/-- That two pools differ in nothing but samples. -/
structure SameBooks (p q : Pool) : Prop where
  blockSize : q.blockSize = p.blockSize
  size : q.size = p.size
  readers : q.readers = p.readers
  free : q.free = p.free
  acquired : q.acquired = p.acquired
  released : q.released = p.released

namespace SameBooks

theorem refl (p : Pool) : SameBooks p p := ⟨rfl, rfl, rfl, rfl, rfl, rfl⟩

theorem trans {p q r : Pool} (h : SameBooks p q) (h' : SameBooks q r) : SameBooks p r :=
  ⟨h'.blockSize.trans h.blockSize, h'.size.trans h.size, h'.readers.trans h.readers,
    h'.free.trans h.free, h'.acquired.trans h.acquired, h'.released.trans h.released⟩

theorem of_eq {p q : Pool} (h : p = q) : SameBooks p q := h ▸ refl p

theorem stats {p q : Pool} (h : SameBooks p q) : q.stats = p.stats := by
  simp [Pool.stats, h.size, h.readers, h.acquired, h.released]

theorem balances {p q : Pool} (h : SameBooks p q) {held : List BufferId} (hb : p.Balances held) :
    q.Balances held where
  size := by
    have := hb.size
    have := h.size
    simp only [Pool.size] at this
    rw [h.readers]
    omega
  count i := by rw [h.readers, hb.count]
  free i := by rw [h.free, h.readers, hb.free]
  once := h.free ▸ hb.once
  books := by rw [h.acquired, h.released, h.readers, hb.books]

end SameBooks

theorem sameBooks_setBuffer (p : Pool) (i : Nat) (xs : Samples) :
    SameBooks p { p with buffers := p.buffers.setIfInBounds i xs } :=
  ⟨rfl, by simp [size], rfl, rfl, rfl, rfl⟩

theorem put_keeps {p q : Pool} {b : BufferId} {xs : Samples} (h : p.put b xs = .ok q) :
    SameBooks p q := by
  cases b with
  | zero => cases h
  | pooled i =>
    simp only [put] at h
    split at h
    · cases h
      exact sameBooks_setBuffer p i xs
    · cases h

theorem moveOut_keeps {p q : Pool} {b : BufferId} {xs : Samples} (h : p.moveOut b = .ok (xs, q)) :
    SameBooks p q := by
  cases b with
  | zero => cases h
  | pooled i =>
    obtain ⟨ys, -, h⟩ := bind_eq_ok.1 h
    cases h
    exact sameBooks_setBuffer p i #[]

theorem sumInto_keeps {p q : Pool} {left right out : BufferId}
    (h : p.sumInto left right out = .ok q) : SameBooks p q := by
  unfold sumInto at h
  split at h
  · cases h
  · obtain ⟨⟨dest, p₁⟩, hmove, h⟩ := bind_eq_ok.1 h
    obtain ⟨xs, -, h⟩ := bind_eq_ok.1 h
    obtain ⟨ys, -, h⟩ := bind_eq_ok.1 h
    exact (moveOut_keeps hmove).trans (put_keeps h)

/-! ## Samples -/

/-- That every buffer of a pool has the samples of a memory, a block of them. -/
structure Stores (p : Pool) (size : Nat) (m : Memory) : Prop where
  blockSize : p.blockSize = size
  buffers : ∀ i < p.size, p.buffers[i]? = some (m i)
  sizes : ∀ i < p.size, (m i).size = size

namespace Stores

variable {p : Pool} {size : Nat} {m : Memory}

theorem get (h : p.Stores size m) {b : BufferId} (hb : b.Below p.size) :
    p.get b = .ok (m.read size b) := by
  cases b with
  | zero => simp [Pool.get, h.blockSize]
  | pooled i => simp [Pool.get, h.buffers i (hb i rfl)]

theorem size_read (h : p.Stores size m) {b : BufferId} (hb : b.Below p.size) :
    (m.read size b).size = size := by
  cases b with
  | zero => simp [silence]
  | pooled i => exact h.sizes i (hb i rfl)

/-- A sum of two buffers in a third meets no fault, and writes that one only. -/
theorem sumInto (h : p.Stores size m) {left right out : BufferId}
    (hs : (Step.sum left right out).Mixes p.size) (bindings : UnitId → Binding)
    (written : UnitId → Nat → Samples) :
    ∃ q, p.sumInto left right out = .ok q ∧ SameBooks p q ∧
      q.Stores size (m.step size bindings written (.sum left right out)) := by
  obtain ⟨hleft, hright, hout, hne, hol, hor⟩ := hs
  cases out with
  | zero => exact absurd rfl hne
  | pooled i =>
    have hi := hout i rfl
    let p₁ : Pool := { p with buffers := p.buffers.setIfInBounds i #[] }
    have hmove : p.moveOut (.pooled i) = .ok (m i, p₁) := by
      simp only [Pool.moveOut, h.get (b := .pooled i) hout]
      rfl
    have hother : ∀ b : BufferId, b.Below p.size → BufferId.pooled i ≠ b →
        p₁.get b = .ok (m.read size b) := by
      intro b hb hbi
      rw [← h.get hb]
      cases b with
      | zero => rfl
      | pooled j =>
        have : i ≠ j := fun he => hbi (by rw [he])
        simp [p₁, Pool.get, this]
    generalize hxs : m.read size left = xs
    generalize hys : m.read size right = ys
    have hsize : xs.size = size ∧ ys.size = size ∧ (m i).size = size := by
      rw [← hxs, ← hys]
      exact ⟨h.size_read hleft, h.size_read hright, h.sizes i hi⟩
    obtain ⟨hx, hy, hz⟩ := hsize
    have hmixed : (Graph.mixed xs ys).size = size := by simp [Graph.mixed, hx, hy]
    have hsum : (Array.zipWith (· + ·) xs ys).extract 0 (min (m i).size (min xs.size ys.size)) ++
        (m i).extract (min (m i).size (min xs.size ys.size)) = Graph.mixed xs ys := by
      have htail : (m i).extract size size = #[] := Array.extract_eq_empty_of_le (by omega)
      simp only [hx, hy, hz, Nat.min_self, htail, Array.append_empty]
      exact Array.extract_eq_self_of_le hmixed.le
    have hlt : i < p₁.size := by simpa [p₁, Pool.size] using hi
    let q : Pool := { p₁ with buffers := p₁.buffers.setIfInBounds i (Graph.mixed xs ys) }
    have hbooks : SameBooks p q :=
      (sameBooks_setBuffer p i #[]).trans (sameBooks_setBuffer p₁ i (Graph.mixed xs ys))
    refine ⟨q, ?_, hbooks, ?_⟩
    · unfold Pool.sumInto
      rw [if_neg (by rintro (h | h); exacts [hol h, hor h])]
      simp only [hmove, bind, Except.bind, hother left hleft hol, hother right hright hor, hxs, hys,
        hsum, Pool.put, hlt, if_true, q]
    · have hstep : ∀ j, m.step size bindings written (.sum left right (.pooled i)) j =
          if j = i then Graph.mixed xs ys else m j := fun j => by rw [Memory.step, hxs, hys]
      refine ⟨hbooks.blockSize.trans h.blockSize, fun j hj => ?_, fun j hj => ?_⟩
      · rw [hbooks.size] at hj
        rw [hstep]
        by_cases hji : j = i
        · subst hji
          have hi' : j < p.buffers.size := hi
          simp [q, p₁, hi']
        · simp [q, p₁, hji, Ne.symm hji, h.buffers j hj]
      · rw [hbooks.size] at hj
        rw [hstep]
        split
        · exact hmixed
        · exact h.sizes j hj

end Stores
/-- That every buffer of a pool has the samples of a block. -/
def Filled (p : Pool) : Prop := ∃ m, p.Stores p.blockSize m

theorem Stores.filled {p : Pool} {size : Nat} {m : Memory} (h : p.Stores size m) : p.Filled := by
  rw [← h.blockSize] at h
  exact ⟨m, h⟩

/-- Buffers that were added are silent. -/
theorem Filled.extends {p q : Pool} (h : p.Filled) (hq : p.Extends q) : q.Filled := by
  obtain ⟨m, hm⟩ := h
  obtain ⟨n, hn⟩ := hq.buffers
  have hbuffer : ∀ i < q.size, ∃ xs : Samples, q.buffers[i]? = some xs ∧ xs.size = q.blockSize := by
    intro i hi
    by_cases hip : i < p.size
    · refine ⟨m i, ?_, (hm.sizes i hip).trans hq.blockSize.symm⟩
      rw [hn, Array.getElem?_append_left hip]
      exact hm.buffers i hip
    · refine ⟨silence p.blockSize, ?_, by simp [silence, hq.blockSize]⟩
      rw [hn, Array.getElem?_append_right (Nat.le_of_not_lt hip)]
      have hi' : i < p.buffers.size + n := by simpa [size, hn] using hi
      have hip' : p.buffers.size ≤ i := Nat.le_of_not_lt hip
      simp only [Array.getElem?_replicate]
      rw [if_pos (by omega)]
  refine ⟨fun i => (q.buffers[i]?).getD #[], rfl, fun i hi => ?_, fun i hi => ?_⟩
  · obtain ⟨xs, hxs, -⟩ := hbuffer i hi
    simp [hxs]
  · obtain ⟨xs, hxs, hsize⟩ := hbuffer i hi
    simp [hxs, hsize]

end Pool

/-! ## The buffers of a unit -/

namespace Engine

/-- The buffers that a unit writes are those at its own outlets. -/
theorem mem_ownBuffers {b : Binding} {o : Nat} {buffer : BufferId} :
    (o, buffer) ∈ ownBuffers b ↔ b.Owns o buffer ∧ buffer ≠ .zero := by
  have hzip : ∀ (p : BufferId × OutletSource),
      (b.outlets.toList.zip b.sources.toList)[o]? = some p ↔
        b.outlets[o]? = some p.1 ∧ b.sources[o]? = some p.2 := by
    intro p
    rw [List.getElem?_zip_eq_some]
    simp
  simp only [ownBuffers, List.mem_filterMap, Prod.exists, List.mem_zipIdx_iff_getElem?]
  constructor
  · rintro ⟨buffer', source, o', hmem, heq⟩
    split at heq
    · next h =>
      cases heq
      cases h
      exact ⟨(hzip _).1 hmem, by simp⟩
    · cases heq
  · rintro ⟨⟨h₁, h₂⟩, hne⟩
    cases buffer with
    | zero => exact absurd rfl hne
    | pooled i => exact ⟨_, _, o, (hzip (.pooled i, .pooled)).2 ⟨h₁, h₂⟩, rfl⟩

theorem nodup_ownBuffers (b : Binding) : (ownBuffers b).Nodup := by
  refine List.Nodup.filterMap ?_ (List.Nodup.of_map Prod.snd ?_)
  · rintro ⟨⟨c, source⟩, o⟩ ⟨⟨c', source'⟩, o'⟩ r h h'
    split at h
    · next he =>
      split at h'
      · next he' =>
        cases he
        cases he'
        cases h
        cases h'
        rfl
      · cases h'
    · cases h
  · rw [List.zipIdx_map_snd]
    exact List.nodup_range'

theorem takeOutlets_keeps {b : Binding} {p q : Pool} {outs : Array Samples}
    (h : takeOutlets b p = .ok (outs, q)) : p.SameBooks q := by
  have : Outcome (fun _ => True) (fun r => p.SameBooks r.2) (takeOutlets b p) := by
    refine Outcome.foldlM (fun _ (r : Array Samples × Pool) => p.SameBooks r.2) (.refl p) ?_
    rintro done ⟨o, buffer⟩ rest ⟨outs, q⟩ - hq
    dsimp only
    cases hm : q.moveOut buffer with
    | error f => exact ⟨⟩
    | ok r => exact hq.trans (Pool.moveOut_keeps hm)
  exact this.of_ok h

theorem returnOutlets_keeps {b : Binding} {p q : Pool} {outs : Array Samples}
    (h : returnOutlets b outs p = .ok q) : p.SameBooks q := by
  have : Outcome (fun _ => True) p.SameBooks (returnOutlets b outs p) := by
    refine Outcome.foldlM (fun _ => p.SameBooks) (.refl p) ?_
    rintro done ⟨o, buffer⟩ rest q - hq
    dsimp only
    cases hm : q.put buffer ((outs[o]?).getD #[]) with
    | error f => exact ⟨⟩
    | ok r => exact hq.trans (Pool.put_keeps hm)
  exact this.of_ok h

/-- That a unit is bound to buffers of its own. -/
structure Apart (b : Binding) (size : Nat) : Prop where
  own : ∀ o buffer, b.Owns o buffer → buffer ≠ .zero ∧ buffer.Below size
  once : ∀ o o' buffer, b.Owns o buffer → b.Owns o' buffer → o = o'

variable {b : Binding} {p : Pool} {size : Nat} {m : Memory}

/-- Taking the buffers of a unit meets no fault, and leaves all others alone. -/
theorem takeOutlets_spec (h : p.Stores size m) (hb : Apart b p.size) :
    ∃ outs q, takeOutlets b p = .ok (outs, q) ∧ outs.size = b.outlets.size ∧
      (∀ o buffer, b.Owns o buffer → ∃ xs : Samples, outs[o]? = some xs ∧ xs.size = size) ∧
      ∀ i, (∀ o, ¬ b.Owns o (.pooled i)) → q.buffers[i]? = p.buffers[i]? := by
  have hnodup := nodup_ownBuffers b
  have hspec : Outcome (fun _ => False) (fun r => p.SameBooks r.2 ∧ r.1.size = b.outlets.size ∧
      (∀ e ∈ ownBuffers b, ∃ xs : Samples, r.1[e.1]? = some xs ∧ xs.size = size) ∧
      ∀ i, (∀ o, (o, BufferId.pooled i) ∉ ownBuffers b) → r.2.buffers[i]? = p.buffers[i]?)
      (takeOutlets b p) := by
    refine Outcome.foldlM (fun (done : List (Nat × BufferId)) (r : Array Samples × Pool) =>
      p.SameBooks r.2 ∧
      r.1.size = b.outlets.size ∧ (∀ e ∈ done, ∃ xs : Samples, r.1[e.1]? = some xs ∧ xs.size = size) ∧
      ∀ i, (∀ o, (o, BufferId.pooled i) ∉ done) → r.2.buffers[i]? = p.buffers[i]?)
      ?_ ?_
    · exact ⟨.refl p, by simp, by simp, by simp⟩
    rintro done ⟨o, buffer⟩ rest ⟨outs, q⟩ hl ⟨hbooks, hsize, hdone, hother⟩
    have hown := (mem_ownBuffers.1 (by rw [hl]; simp : (o, buffer) ∈ ownBuffers b)).1
    obtain ⟨hne, hbelow⟩ := hb.own o buffer hown
    cases buffer with
    | zero => exact absurd rfl hne
    | pooled i =>
      -- no outlet before this one has the same buffer
      have hnot : ∀ o', (o', BufferId.pooled i) ∉ done := by
        intro o' ho'
        have hown' := (mem_ownBuffers.1 (by rw [hl]; simp [ho'] :
          (o', BufferId.pooled i) ∈ ownBuffers b)).1
        rw [hb.once o' o _ hown' hown] at ho'
        rw [hl] at hnodup
        exact (List.nodup_append.1 hnodup).2.2 _ ho' _ List.mem_cons_self rfl
      have hi := hbelow i rfl
      have hget : q.get (.pooled i) = .ok (m i) := by
        simp [Pool.get, hother i hnot, h.buffers i hi]
      have hlt : o < outs.size := by
        rw [hsize]
        exact (Array.getElem?_eq_some_iff.1 hown.1).1
      dsimp only
      simp only [Pool.moveOut, hget, bind, Except.bind, pure, Except.pure]
      refine ⟨hbooks.trans (Pool.sameBooks_setBuffer q i #[]), by simpa using hsize, fun e he => ?_,
        fun j hj => ?_⟩
      · by_cases heo : e.1 = o
        · refine ⟨m i, by simp [heo, hlt], h.sizes i hi⟩
        · obtain ⟨xs, hxs, hlen⟩ := hdone e (by
            rcases List.mem_append.1 he with he | he
            · exact he
            · exact absurd (by rw [List.mem_singleton.1 he]) heo)
          exact ⟨xs, by simpa [Ne.symm heo] using hxs, hlen⟩
      · have hji : i ≠ j := by
          rintro rfl
          exact hj o (by simp)
        have := hother j fun o' ho' => hj o' (by simp [ho'])
        simpa [hji] using this
  obtain ⟨⟨outs, q⟩, heq, -, hsize, houts, hother⟩ := hspec.exists_ok
  refine ⟨outs, q, heq, hsize, fun o buffer ho => ?_, fun i hi => hother i fun o ho => ?_⟩
  · exact houts (o, buffer) (mem_ownBuffers.2 ⟨ho, (hb.own o buffer ho).1⟩)
  · exact hi o (mem_ownBuffers.1 ho).1

/-- Putting back what a unit has written meets no fault, and leaves all other buffers alone. -/
theorem returnOutlets_spec (hb : Apart b p.size) (hblock : p.blockSize = size)
    {outs : Array Samples}
    (houts : ∀ o buffer, b.Owns o buffer → ∃ xs, outs[o]? = some xs ∧ xs.size = size)
    (hbuffers : ∀ i < p.size, (∀ o, ¬ b.Owns o (.pooled i)) →
      p.buffers[i]? = some (m i) ∧ (m i).size = size) :
    ∃ q, returnOutlets b outs p = .ok q ∧
      q.Stores size (m.write b fun o => (outs[o]?).getD #[]) := by
  have hspec : Outcome (fun _ => False) (fun q => p.SameBooks q ∧
      (∀ o i, (o, BufferId.pooled i) ∈ ownBuffers b → q.buffers[i]? = outs[o]?) ∧
      ∀ i, (∀ o, (o, BufferId.pooled i) ∉ ownBuffers b) → q.buffers[i]? = p.buffers[i]?)
      (returnOutlets b outs p) := by
    refine Outcome.foldlM (fun (done : List (Nat × BufferId)) (q : Pool) => p.SameBooks q ∧
      (∀ o i, (o, BufferId.pooled i) ∈ done → q.buffers[i]? = outs[o]?) ∧
      ∀ i, (∀ o, (o, BufferId.pooled i) ∉ done) → q.buffers[i]? = p.buffers[i]?)
      ?_ ?_
    · exact ⟨.refl p, by simp, by simp⟩
    rintro done ⟨o, buffer⟩ rest q hl ⟨hbooks, hdone, hother⟩
    have hown := (mem_ownBuffers.1 (by rw [hl]; simp : (o, buffer) ∈ ownBuffers b)).1
    obtain ⟨hne, hbelow⟩ := hb.own o buffer hown
    cases buffer with
    | zero => exact absurd rfl hne
    | pooled i =>
      obtain ⟨xs, hxs, -⟩ := houts o _ hown
      have hi : i < q.size := by
        rw [hbooks.size]
        exact hbelow i rfl
      have hi' : i < q.buffers.size := hi
      dsimp only
      simp only [Pool.put, hi, if_true, hxs, Option.getD_some]
      refine ⟨hbooks.trans (Pool.sameBooks_setBuffer q i xs), fun o' j hj => ?_, fun j hj => ?_⟩
      · by_cases hji : i = j
        · subst hji
          have hown' := (mem_ownBuffers.1 (by
            rw [hl]
            rcases List.mem_append.1 hj with hj | hj
            · simp [hj]
            · simp [List.mem_singleton.1 hj] : (o', BufferId.pooled i) ∈ ownBuffers b)).1
          rw [hb.once o' o _ hown' hown, hxs]
          simp [hi']
        · have := hdone o' j (by
            rcases List.mem_append.1 hj with hj | hj
            · exact hj
            · have := List.mem_singleton.1 hj
              cases this
              exact absurd rfl hji)
          simpa [hji] using this
      · have hji : i ≠ j := by
          rintro rfl
          exact hj o (by simp)
        have := hother j fun o' ho' => hj o' (by simp [ho'])
        simpa [hji] using this
  obtain ⟨q, heq, hbooks, hown, hother⟩ := hspec.exists_ok
  have hbuffer : ∀ i < p.size, ∃ xs, q.buffers[i]? = some xs ∧ xs.size = size ∧
      m.write b (fun o => (outs[o]?).getD #[]) i = xs := by
    intro i hi
    by_cases h : ∃ o, b.Owns o (.pooled i)
    · obtain ⟨o, ho⟩ := h
      obtain ⟨xs, hxs, hlen⟩ := houts o _ ho
      refine ⟨xs, (hown o i (mem_ownBuffers.2 ⟨ho, by simp⟩)).trans hxs, hlen, ?_⟩
      simp [Memory.write, Binding.writer?_eq_some ho fun o' ho' => hb.once o' o _ ho' ho, hxs]
    · have hnot : ∀ o, ¬ b.Owns o (.pooled i) := fun o ho => h ⟨o, ho⟩
      obtain ⟨hm, hlen⟩ := hbuffers i hi hnot
      refine ⟨m i, (hother i fun o ho => hnot o (mem_ownBuffers.1 ho).1).trans hm, hlen, ?_⟩
      simp [Memory.write, Binding.writer?_eq_none.2 hnot]
  refine ⟨q, heq, hbooks.blockSize.trans hblock, fun i hi => ?_, fun i hi => ?_⟩
  · obtain ⟨xs, hxs, -, hm⟩ := hbuffer i (hbooks.size ▸ hi)
    rw [hxs, hm]
  · obtain ⟨xs, -, hlen, hm⟩ := hbuffer i (hbooks.size ▸ hi)
    rw [hm, hlen]

end Engine
end Patchbay
