import Patchbay.Proofs.Catalogue.DelayLine
import Patchbay.Proofs.Graph.Signals

/-!
# Links, piece by piece

The units of a link work through their block in pieces. As far as a writer has come, its signal is on
the bus; the rest of the bus is as it was (`process_linkWriter`). As far as a reader has come, it has
sent what is on the bus (`process_linkReader`). So neither depends on how the block is cut.
-/

namespace Patchbay

open Catalogue

/-! ## Samples that are replaced bit by bit -/

/-- Samples of which those before an offset are fresh, and all others old. -/
def partly (fresh old : Samples) (last : Nat) : Samples :=
  fresh.extract 0 last ++ old.extract last old.size

theorem partly_zero (fresh old : Samples) : partly fresh old 0 = old := by simp [partly]

section Partly

variable {fresh old : Samples} {first last : Nat} (hsize : fresh.size = old.size)
  (hlast : last ≤ old.size)
include hsize

theorem partly_size : partly fresh old old.size = fresh := by
  simp [partly, ← hsize]

include hlast

theorem size_partly : (partly fresh old last).size = old.size := by
  simp only [partly, Array.size_append, Array.size_extract]
  omega

theorem getElem?_partly (i : Nat) :
    (partly fresh old last)[i]? = if i < last then fresh[i]? else old[i]? := by
  have hsplit : (fresh.extract 0 last).size = last := by
    rw [Array.size_extract]
    omega
  rw [partly, Array.getElem?_append, hsplit]
  split
  · next hi => rw [Array.getElem?_extract, if_pos (by omega), Nat.zero_add]
  · next hi =>
    by_cases hin : i < old.size
    · rw [Array.getElem?_extract, if_pos (by omega), Nat.add_sub_cancel' (Nat.not_lt.1 hi)]
    · rw [Array.getElem?_eq_none (by simp; omega), Array.getElem?_eq_none (by omega)]

variable (hle : first ≤ last)
include hle

/-- What comes next is still old. -/
theorem slice_partly :
    slice (partly fresh old first) first last = .ok (old.extract first last) := by
  have hpartly := size_partly hsize (hle.trans hlast)
  rw [slice, if_pos ⟨hle, by omega⟩]
  refine congrArg Except.ok (Array.ext_getElem? fun i => ?_)
  rw [Array.getElem?_extract, Array.getElem?_extract, hpartly]
  split
  · rw [getElem?_partly hsize (hle.trans hlast), if_neg (by omega)]
  · rfl

/-- A further range is replaced. -/
theorem overwrite_partly :
    overwrite (partly fresh old first) first (fresh.extract first last) = partly fresh old last := by
  have hpartly := size_partly hsize (hle.trans hlast)
  have hrange : (fresh.extract first last).size = last - first := by
    rw [Array.size_extract]
    omega
  apply Array.ext_getElem?
  intro i
  rw [getElem?_overwrite _ _ _ _ (by omega), hrange, getElem?_partly hsize hlast]
  split
  · next hi =>
    rw [if_pos (by omega), Array.getElem?_extract, if_pos (by omega), Nat.add_sub_cancel' hi.1]
  · next hi =>
    rw [getElem?_partly hsize (hle.trans hlast)]
    -- the offset lies before the range or behind it
    by_cases hfirst : i < first
    · rw [if_pos hfirst, if_pos (by omega)]
    · rw [if_neg hfirst, if_neg (by omega)]

end Partly

/-! ## What a link carries -/

/-- What is on the bus of a link after some signals were written to it: their sum, from left to right,
or the last of them. -/
def LinkFamily.carried (family : LinkFamily) (size : Nat) (signals : List Samples) : Samples :=
  match family with
  | .throw => signals.foldl Graph.mixed (silence size)
  | .send => signals.getLast?.getD (silence size)

theorem LinkFamily.carried_nil (family : LinkFamily) (size : Nat) :
    family.carried size [] = silence size := by
  cases family <;> rfl

theorem LinkFamily.carried_append (family : LinkFamily) (name : Symbol) (size : Nat)
    (signals : List Samples) (xs : Samples) : family.carried size (signals ++ [xs]) =
      LinkWriter.write ⟨family, name⟩ (family.carried size signals) xs := by
  cases family with
  | throw => exact List.foldl_append
  | send => simp [carried, LinkWriter.write]

section Pieces

variable {ins : Inputs} {outs : Outputs} {first last size : Nat}

/-- A writer treats each sample by itself. -/
theorem Catalogue.LinkWriter.write_extract (w : LinkWriter) (old xs : Samples) :
    w.write (old.extract first last) (xs.extract first last) = (w.write old xs).extract first last := by
  unfold write
  split
  · apply Array.ext_getElem?
    intro i
    simp only [Array.getElem?_zipWith, Array.getElem?_extract, Array.size_zipWith]
    grind
  · rfl

theorem Catalogue.LinkWriter.size_write (w : LinkWriter) {old xs : Samples} (h : xs.size = old.size) :
    (w.write old xs).size = old.size := by
  unfold write
  split
  · rw [Array.size_zipWith, h, Nat.min_self]
  · exact h

/-- A writer goes on writing its signal to the bus. -/
theorem process_linkWriter (w : LinkWriter) {old xs : Samples} (hin : ins.inlet 0 = .ok xs)
    (hsize : xs.size = old.size) (hbus : outs.bus = some (partly (w.write old xs) old first))
    (hle : first ≤ last) (hlast : last ≤ old.size) :
    CatalogueUnit.process (.linkWriter w) ins outs first last =
      .ok (.linkWriter w, { outs with bus := some (partly (w.write old xs) old last) }) := by
  have hwritten := w.size_write hsize
  have hpiece : slice xs first last = .ok (xs.extract first last) := if_pos ⟨hle, by omega⟩
  refine bind_eq_ok.2 ⟨_, ?_, rfl⟩
  refine bind_eq_ok.2 ⟨xs, hin, bind_eq_ok.2 ⟨_, hpiece, ?_⟩⟩
  rw [hbus]
  dsimp only
  rw [slice_partly hwritten hlast hle, ok_bind, w.write_extract,
    overwrite_partly hwritten hlast hle]
  rfl

/-- A reader goes on sending what is on the bus. -/
theorem process_linkReader (r : LinkReader) {bus old : Samples} (hbus : outs.bus = some bus)
    (hsize : bus.size = old.size) (hout : outs.outlets[0]? = some (partly bus old first))
    (hle : first ≤ last) (hlast : last ≤ old.size) :
    CatalogueUnit.process (.linkReader r) ins outs first last =
      .ok (.linkReader r,
        { outs with outlets := outs.outlets.setIfInBounds 0 (partly bus old last) }) := by
  have hpiece : slice bus first last = .ok (bus.extract first last) := if_pos ⟨hle, by omega⟩
  refine bind_eq_ok.2 ⟨_, ?_, rfl⟩
  unfold LinkReader.process
  rw [hbus]
  dsimp only
  rw [hpiece, ok_bind, Outputs.setOutlet, Outputs.modifyOutlet, Outputs.outlet, hout, ok_bind,
    slice_partly hsize hlast hle, ok_bind, ok_bind, overwrite_partly hsize hlast hle, ← hbus]
  rfl

end Pieces
end Patchbay
