import Patchbay.Proofs.Engine.Moves
import Patchbay.Proofs.Number.Order
import Patchbay.Proofs.Timeline

/-!
# How a block is split

A message for a unit that computes waits until the unit's step. `history` is what has happened to a
unit, and what waits in it is what has arrived lately (`recent`), lined up in order of time
(`lineUp`). In its step the unit receives all of that, and computes the samples of the block in one
sweep (`Splits`).

The step itself is followed piece by piece (`Course`).
-/

namespace Patchbay

/-! ## Messages in line -/

/-- Puts a message behind those that are not later. -/
def enqueue (line : List Pending) (p : Pending) : List Pending :=
  insertBehind (·.message.timestamp ≤ p.message.timestamp) p line

/-- Puts messages behind those that are not later, one after another. -/
def lineUp (line arrived : List Pending) : List Pending := arrived.foldl enqueue line

theorem lineUp_append (line arrived more : List Pending) :
    lineUp line (arrived ++ more) = lineUp (lineUp line arrived) more := List.foldl_append

theorem lineUp_perm (line arrived : List Pending) : (lineUp line arrived).Perm (line ++ arrived) := by
  induction arrived generalizing line with
  | nil => simp [lineUp]
  | cons p arrived ih =>
    refine (ih (enqueue line p)).trans ?_
    exact ((insertBehind_perm _ p line).append_right arrived).trans List.perm_middle.symm

/-- What is in line stays in its order. -/
theorem sublist_lineUp (line arrived : List Pending) : line.Sublist (lineUp line arrived) := by
  induction arrived generalizing line with
  | nil => exact .refl line
  | cons p arrived ih => exact (sublist_insertBehind _ p line).trans (ih _)

theorem lineUp_eq_nil {line arrived : List Pending} :
    lineUp line arrived = [] ↔ line = [] ∧ arrived = [] := by
  rw [← List.length_eq_zero_iff, (lineUp_perm line arrived).length_eq, List.length_append,
    Nat.add_eq_zero_iff, List.length_eq_zero_iff, List.length_eq_zero_iff]

/-- Whether two messages are of one time. -/
def Pending.together (p q : Pending) : Bool :=
  decide (p.message.timestamp ≤ q.message.timestamp ∧ q.message.timestamp ≤ p.message.timestamp)

/-- Messages in line are in order of time, those of one time in the order in which they came. -/
theorem lineUp_inOrder {arrived : List Pending}
    (h : ∀ p ∈ arrived, p.message.timestamp.isNaN = false) :
    (lineUp [] arrived).Pairwise (·.message.timestamp ≤ ·.message.timestamp) ∧
      ∀ p ∈ arrived, (lineUp [] arrived).filter p.together = arrived.filter p.together := by
  let key (p : Pending) : ℤ ×ₗ ℤ ×ₗ ℤ := Double.place p.message.timestamp
  have hle : ∀ {p q : Pending}, p.message.timestamp.isNaN = false →
      q.message.timestamp.isNaN = false →
      (p.message.timestamp ≤ q.message.timestamp ↔ key p ≤ key q) := fun hp hq => by
    rw [Double.le_iff]
    exact ⟨fun h => h.2.2, fun h => ⟨hp, hq, h⟩⟩
  -- The line is followed while it grows; `done` are the messages that are in it.
  have hall : ∀ (rest done line : List Pending), arrived = done ++ rest →
      (∀ p ∈ line, p.message.timestamp.isNaN = false) → line.Pairwise (key · ≤ key ·) →
      (∀ k, line.filter (key · = k) = done.filter (key · = k)) →
      (lineUp line rest).Pairwise (key · ≤ key ·) ∧
        ∀ k, (lineUp line rest).filter (key · = k) = arrived.filter (key · = k) := by
    intro rest
    induction rest with
    | nil =>
      intro done line hsplit _ hsorted hties
      rw [List.append_nil] at hsplit
      exact ⟨hsorted, hsplit ▸ hties⟩
    | cons p rest ih =>
      intro done line hsplit hline hsorted hties
      have hp : p.message.timestamp.isNaN = false := h p (by simp [hsplit])
      have hb : ∀ q ∈ line, decide (q.message.timestamp ≤ p.message.timestamp) = true ↔ key q ≤ key p :=
        fun q hq => decide_eq_true_iff.trans (hle (hline q hq) hp)
      refine ih (done ++ [p]) (enqueue line p) (by simp [hsplit]) (fun q hq => ?_)
        (pairwise_insertBehind hb hsorted) fun k => ?_
      · rcases mem_insertBehind.1 hq with rfl | hq
        · exact hp
        · exact hline q hq
      · rw [enqueue, filter_insertBehind hb, hties, List.filter_append]
  obtain ⟨hsorted, hties⟩ := hall arrived [] [] rfl (by simp) .nil fun _ => rfl
  have hmem : ∀ p ∈ lineUp [] arrived, p.message.timestamp.isNaN = false := fun p hp =>
    h p (by simpa using (lineUp_perm [] arrived).mem_iff.1 hp)
  refine ⟨hsorted.imp_of_mem fun hp hq hpq => (hle (hmem _ hp) (hmem _ hq)).2 hpq, fun p hp => ?_⟩
  have hkey : ∀ l : List Pending, (∀ q ∈ l, q.message.timestamp.isNaN = false) →
      l.filter p.together = l.filter (key · = key p) := by
    intro l hl
    refine List.filter_congr fun q hq => ?_
    rw [Pending.together, decide_eq_decide, hle (h p hp) (hl q hq), hle (hl q hq) (h p hp)]
    exact ⟨fun h => le_antisymm h.2 h.1, fun h => ⟨h.ge, h.le⟩⟩
  rw [hkey _ hmem, hkey _ h, hties]

/-- That a line holds what has arrived: in order of time, if all have one, and messages of one time in
the order in which they came. -/
structure InLine (arrived line : List Pending) : Prop where
  perm : line.Perm arrived
  inOrder : (∀ p ∈ arrived, p.message.timestamp.isNaN = false) →
    line.Pairwise (·.message.timestamp ≤ ·.message.timestamp) ∧
      ∀ p ∈ arrived, line.filter p.together = arrived.filter p.together

theorem inLine_lineUp (arrived : List Pending) : InLine arrived (lineUp [] arrived) :=
  ⟨lineUp_perm [] arrived, lineUp_inOrder⟩

/-! ## Histories -/

/-- That a message was put before a unit. -/
def arrival (id : UnitId) (p : Pending) : Happening := .deferred id p.inlet p.message

/-- Whether something happened to a unit. -/
def Happening.concerns (id : UnitId) : Happening → Bool
  | .received unit .. | .deferred unit .. | .computed unit .. => unit == id
  | _ => false

/-- The samples that were computed. -/
def Happening.range? : Happening → Option (Nat × Nat)
  | .computed _ first last => some (first, last)
  | _ => none

/-- The message that was received. -/
def Happening.reception? : Happening → Option Pending
  | .received _ inlet message => some ⟨inlet, message⟩
  | _ => none

/-- The message that arrived. -/
def Happening.arrival? : Happening → Option Pending
  | .deferred _ inlet message => some ⟨inlet, message⟩
  | _ => none

abbrev History := List Happening

namespace History

/-- The ranges of samples that were computed. -/
def ranges (h : History) : List (Nat × Nat) := h.filterMap Happening.range?

/-- The messages that were received. -/
def receptions (h : History) : List Pending := h.filterMap Happening.reception?

/-- The messages that arrived. -/
def arrivals (h : History) : List Pending := h.filterMap Happening.arrival?

/-- The messages that have arrived lately, after one more thing has happened. -/
def note (recent : List Pending) : Happening → List Pending
  | .deferred _ inlet message => recent ++ [⟨inlet, message⟩]
  | _ => []

/-- The messages that have arrived since anything else last happened. -/
def recent (h : History) : List Pending := h.foldl note []

variable (id : UnitId) (ps : List Pending)

theorem ranges_arrivals : ranges (ps.map (arrival id)) = [] := by
  rw [ranges, List.filterMap_map, List.filterMap_eq_nil_iff]
  exact fun _ _ => rfl

theorem receptions_arrivals : receptions (ps.map (arrival id)) = [] := by
  rw [receptions, List.filterMap_map, List.filterMap_eq_nil_iff]
  exact fun _ _ => rfl

theorem arrivals_arrivals : arrivals (ps.map (arrival id)) = ps := by
  rw [arrivals, List.filterMap_map]
  exact List.filterMap_some

theorem foldl_note_arrivals (recent : List Pending) :
    (ps.map (arrival id)).foldl note recent = recent ++ ps := by
  induction ps generalizing recent with
  | nil => simp
  | cons p ps ih =>
    rw [List.map_cons, List.foldl_cons, ih]
    simp [note, arrival]

theorem recent_append_arrivals (h : History) : recent (h ++ ps.map (arrival id)) = recent h ++ ps := by
  rw [recent, List.foldl_append, foldl_note_arrivals, recent]

end History

/-- Whether ranges follow one another, and are together the samples from `first` up to `last`. -/
def Tiles : (first last : Nat) → List (Nat × Nat) → Prop
  | first, last, [] => first = last
  | first, last, r :: ranges => r.1 = first ∧ r.1 ≤ r.2 ∧ Tiles r.2 last ranges

theorem Tiles.append {a b c : Nat} {l l' : List (Nat × Nat)} (h : Tiles a b l) (h' : Tiles b c l') :
    Tiles a c (l ++ l') := by
  induction l generalizing a with
  | nil =>
    cases h
    exact h'
  | cons r l ih => exact ⟨h.1, h.2.1, ih h.2.2⟩

theorem Tiles.le {a b : Nat} {l : List (Nat × Nat)} (h : Tiles a b l) : a ≤ b := by
  induction l generalizing a with
  | nil => exact Nat.le_of_eq h
  | cons r l ih => exact (h.1 ▸ h.2.1).trans (ih h.2.2)

/-- The latest of some offsets, and of one to start from. -/
def latest (offset : Float → Nat) (first : Nat) (ps : List Pending) : Nat :=
  ps.foldl (fun last p => max last (offset p.message.timestamp)) first

/-! ## The course of a step -/

/-- What is to be computed from one offset to another, if anything. -/
def upTo (id : UnitId) (first last : Nat) : History :=
  if first < last then [.computed id first last] else []

/-- What happens while a unit, which has computed the samples before `last`, receives the messages
that wait in it: before each it computes the samples up to the message's offset, and afterwards more
may arrive. -/
inductive Course (id : UnitId) (offset : Float → Nat) : Nat → List Pending → History → Nat → Prop
  | done {last : Nat} : Course id offset last [] [] last
  | next {last stop : Nat} {p : Pending} {line news : List Pending} {h : History} :
      Course id offset (max last (offset p.message.timestamp)) (lineUp line news) h stop →
      Course id offset last (p :: line)
        (upTo id last (offset p.message.timestamp) ++
          .received id p.inlet p.message :: news.map (arrival id) ++ h) stop

theorem ranges_upTo (id : UnitId) (first last : Nat) :
    (upTo id first last).ranges = if first < last then [(first, last)] else [] := by
  unfold upTo
  split <;> rfl

theorem receptions_upTo (id : UnitId) (first last : Nat) : (upTo id first last).receptions = [] := by
  unfold upTo
  split <;> rfl

theorem arrivals_upTo (id : UnitId) (first last : Nat) : (upTo id first last).arrivals = [] := by
  unfold upTo
  split <;> rfl

theorem tiles_upTo (id : UnitId) (first last : Nat) :
    Tiles first (max first last) (upTo id first last).ranges := by
  rw [ranges_upTo]
  split
  · next h => exact ⟨rfl, h.le, (max_eq_right h.le).symm⟩
  · next h => exact (max_eq_left (Nat.not_lt.1 h)).symm

namespace Course

variable {id : UnitId} {offset : Float → Nat} {last stop : Nat} {line : List Pending} {h : History}

open History

theorem ranges_next (p : Pending) (news : List Pending) (a : Nat) :
    ranges (upTo id last a ++ .received id p.inlet p.message :: news.map (arrival id) ++ h) =
      (upTo id last a).ranges ++ ranges h := by
  simp only [ranges, List.filterMap_append, List.filterMap_cons, Happening.range?]
  have := ranges_arrivals id news
  rw [ranges] at this
  rw [this, List.append_nil]

theorem receptions_next (p : Pending) (news : List Pending) (a : Nat) :
    receptions (upTo id last a ++ .received id p.inlet p.message :: news.map (arrival id) ++ h) =
      p :: receptions h := by
  simp only [receptions, List.filterMap_append, List.filterMap_cons, Happening.reception?]
  have h₁ := receptions_upTo id last a
  have h₂ := receptions_arrivals id news
  rw [receptions] at h₁ h₂
  rw [h₁, h₂]
  rfl

theorem arrivals_next (p : Pending) (news : List Pending) (a : Nat) :
    arrivals (upTo id last a ++ .received id p.inlet p.message :: news.map (arrival id) ++ h) =
      news ++ arrivals h := by
  simp only [arrivals, List.filterMap_append, List.filterMap_cons, Happening.arrival?]
  have h₁ := arrivals_upTo id last a
  have h₂ := arrivals_arrivals id news
  rw [arrivals] at h₁ h₂
  rw [h₁, h₂]
  rfl

theorem tiles (hc : Course id offset last line h stop) : Tiles last stop (ranges h) := by
  induction hc with
  | done => exact rfl
  | next _ ih =>
    rw [ranges_next]
    exact (tiles_upTo id _ _).append ih

/-- No range is empty. -/
theorem proper (hc : Course id offset last line h stop) : ∀ r ∈ ranges h, r.1 < r.2 := by
  induction hc with
  | done => exact fun r hr => by cases hr
  | @next last stop p line news h _ ih =>
    rw [ranges_next, ranges_upTo]
    split
    · next hlt => exact List.forall_mem_cons.2 ⟨hlt, ih⟩
    · exact ih

/-- Everything that waits or arrives is received, once. -/
theorem receives (hc : Course id offset last line h stop) :
    (receptions h).Perm (line ++ arrivals h) := by
  induction hc with
  | done => exact .refl _
  | @next last stop p line news h _ ih =>
    rw [receptions_next, arrivals_next, List.cons_append, ← List.append_assoc]
    exact .cons p (ih.trans ((lineUp_perm line news).append_right _))

/-- What waits is received in its order. -/
theorem inOrder (hc : Course id offset last line h stop) : line.Sublist (receptions h) := by
  induction hc with
  | done => exact .refl _
  | @next last stop p line news h _ ih =>
    rw [receptions_next]
    exact ((sublist_lineUp line news).trans ih).cons_cons p

theorem stop_eq (hc : Course id offset last line h stop) : stop = latest offset last (receptions h) := by
  induction hc with
  | done => rfl
  | next _ ih =>
    rw [receptions_next]
    exact ih

/-- Nothing has arrived lately when everything has been received. -/
theorem foldl_note (hc : Course id offset last line h stop) (ps : List Pending) :
    h.foldl note ps = if line = [] then ps else [] := by
  induction hc generalizing ps with
  | done => rfl
  | @next last stop p line news h _ ih =>
    have hreceived : ∀ recent, note recent (.received id p.inlet p.message) = [] := fun _ => rfl
    rw [List.foldl_append, List.foldl_append, List.foldl_cons, hreceived, foldl_note_arrivals, ih]
    split
    · next hnil => simp [(lineUp_eq_nil.1 hnil).2]
    · rfl

omit offset last stop line in
/-- The rest of a history from a reception on, if what it begins with has no receptions. -/
theorem split_behind {p : Pending} {pre post front : History}
    (hfront : .received id p.inlet p.message ∉ front)
    (hsplit : front ++ h = pre ++ .received id p.inlet p.message :: post) :
    ∃ pre', pre = front ++ pre' ∧ h = pre' ++ .received id p.inlet p.message :: post := by
  rcases List.append_eq_append_iff.1 hsplit with ⟨mid, rfl, hrest⟩ | ⟨mid, rfl, hrest⟩
  · exact ⟨mid, rfl, hrest⟩
  · cases mid with
    | nil => exact ⟨[], by simp, by simpa using hrest.symm⟩
    | cons x mid =>
      rw [List.cons_append, List.cons.injEq] at hrest
      simp [hrest.1] at hfront

/-- Each message is received after the samples before the latest offset so far, and before all
others. -/
theorem atOffset (hc : Course id offset last line h stop) {pre post : History} {p : Pending}
    (hsplit : h = pre ++ .received id p.inlet p.message :: post) :
    Tiles last (latest offset last (receptions pre ++ [p])) (ranges pre) ∧
      Tiles (latest offset last (receptions pre ++ [p])) stop (ranges post) := by
  induction hc generalizing pre with
  | done => simp at hsplit
  | @next last stop q line news h hrest ih =>
    have hup : .received id p.inlet p.message ∉ upTo id last (offset q.message.timestamp) := by
      unfold upTo
      split <;> simp
    have hnews : .received id p.inlet p.message ∉ news.map (arrival id) := by
      simp [arrival]
    rw [List.append_assoc] at hsplit
    obtain ⟨mid, rfl, hmid⟩ := split_behind hup hsplit
    cases mid with
    | nil =>
      -- It is the message that is received first.
      rw [List.nil_append, List.cons_append, List.cons.injEq] at hmid
      obtain ⟨hq, rfl⟩ := hmid
      have hpq : q = p := by
        cases p
        cases q
        simpa using hq
      subst hpq
      rw [List.append_nil, receptions_upTo, History.ranges, History.ranges, List.filterMap_append,
        ← History.ranges, ← History.ranges, ← History.ranges, ranges_arrivals]
      exact ⟨tiles_upTo id _ _, hrest.tiles⟩
    | cons x mid =>
      rw [List.cons_append, List.cons_append, List.cons.injEq] at hmid
      obtain ⟨rfl, hmid⟩ := hmid
      obtain ⟨pre, rfl, hpre⟩ := split_behind hnews hmid
      have hih := ih hpre
      rw [← List.cons_append, ← List.append_assoc, receptions_next, ranges_next]
      exact ⟨(tiles_upTo id _ _).append hih.1, hih.2⟩

end Course

/-! ## Whole steps -/

/-- What a whole step of a unit comes to, in which `line` are the messages that wait at first. -/
structure Splits (id : UnitId) (size : Nat) (offset : Float → Nat) (line : List Pending)
    (h : History) : Prop where
  /-- The samples of the block are computed once each, and in order. -/
  tiles : Tiles 0 size h.ranges
  proper : line ≠ [] → ∀ r ∈ h.ranges, r.1 < r.2
  /-- Without messages the block is computed in one piece. -/
  whole : line = [] → h = [.computed id 0 size]
  /-- All messages are received once each, those that arrive during the step as well. -/
  receives : h.receptions.Perm (line ++ h.arrivals)
  inOrder : line.Sublist h.receptions
  /-- A message is received after the samples before the latest offset so far, and before all
  others. -/
  atOffset : ∀ (pre : History) (p : Pending) (post : History), h = pre ++ .received id p.inlet p.message :: post →
    Tiles 0 (latest offset 0 (pre.receptions ++ [p])) pre.ranges ∧
      Tiles (latest offset 0 (pre.receptions ++ [p])) size post.ranges
  /-- At the end there is nothing that has arrived lately. -/
  settled : ∀ recent, h.foldl History.note recent = []

theorem latest_le {offset : Float → Nat} {size first : Nat} (hoffset : ∀ t, offset t ≤ size)
    (hfirst : first ≤ size) (ps : List Pending) : latest offset first ps ≤ size := by
  induction ps generalizing first with
  | nil => exact hfirst
  | cons p ps ih => exact ih (max_le hfirst (hoffset _))

theorem splits_whole (id : UnitId) (size : Nat) (offset : Float → Nat) :
    Splits id size offset [] [.computed id 0 size] where
  tiles := ⟨rfl, Nat.zero_le _, rfl⟩
  proper h := (h rfl).elim
  whole _ := rfl
  receives := .refl _
  inOrder := .refl _
  atOffset pre p post h := by
    have : .received id p.inlet p.message ∈ [Happening.computed id 0 size] := by
      rw [h]
      simp
    simp at this
  settled _ := rfl

/-- A step that has taken its course, and computed the rest of the block. -/
theorem splits_of_course {id : UnitId} {size stop : Nat} {offset : Float → Nat} {line : List Pending}
    {h : History} (hoffset : ∀ t, offset t ≤ size) (hline : line ≠ [])
    (hc : Course id offset 0 line h stop) : Splits id size offset line (h ++ upTo id stop size) := by
  have hstop : stop ≤ size := by
    rw [hc.stop_eq]
    exact latest_le hoffset (Nat.zero_le _) _
  have hrest := tiles_upTo id stop size
  rw [max_eq_right hstop] at hrest
  have hreceived : ∀ p : Pending, .received id p.inlet p.message ∉ upTo id stop size := by
    intro p
    unfold upTo
    split <;> simp
  have happend : ∀ {α : Type} (f : Happening → Option α),
      (h ++ upTo id stop size).filterMap f = h.filterMap f ++ (upTo id stop size).filterMap f :=
    fun f => List.filterMap_append
  constructor
  · rw [History.ranges, happend]
    exact hc.tiles.append hrest
  · intro _
    rw [History.ranges, happend]
    refine List.forall_mem_append.2 ⟨hc.proper, ?_⟩
    rw [← History.ranges, ranges_upTo]
    split
    · next hlt => simpa using hlt
    · simp
  · exact fun hnil => (hline hnil).elim
  · rw [History.receptions, History.arrivals, happend, happend, ← History.receptions,
      ← History.receptions, ← History.arrivals, ← History.arrivals, receptions_upTo, arrivals_upTo,
      List.append_nil, List.append_nil]
    exact hc.receives
  · rw [History.receptions, happend, ← History.receptions, ← History.receptions, receptions_upTo,
      List.append_nil]
    exact hc.inOrder
  · intro pre p post hsplit
    rcases List.append_eq_append_iff.1 hsplit with ⟨mid, rfl, hmid⟩ | ⟨mid, rfl, hmid⟩
    · exact absurd (hmid ▸ by simp) (hreceived p)
    · cases mid with
      | nil =>
        rw [List.nil_append] at hmid
        exact absurd (hmid ▸ by simp) (hreceived p)
      | cons x mid =>
        rw [List.cons_append, List.cons.injEq] at hmid
        obtain ⟨rfl, rfl⟩ := hmid
        obtain ⟨hpre, hpost⟩ := hc.atOffset rfl
        rw [show History.ranges (mid ++ upTo id stop size) =
          History.ranges mid ++ History.ranges (upTo id stop size) from List.filterMap_append]
        exact ⟨hpre, hpost.append hrest⟩
  · intro recent
    rw [List.foldl_append, hc.foldl_note, if_neg hline]
    unfold upTo
    split <;> rfl

end Patchbay
